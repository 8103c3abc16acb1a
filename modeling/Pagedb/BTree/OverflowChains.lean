/-
  Pagedb.BTree.OverflowChains — reading overflow values back
  (`btree/overflow.rs`).

  A chain is a root page and the pages it links to, in order.  Four loops walk
  it: `read_chain`, `read_chain_range`, `collect_chain` and `release`.  Each keeps
  the set of pages it has visited.

  Main results:
    * `readChainRange_returns` — a window read is that window of the value;
    * `walkChain_turns`, `readChainFrom_turns`, `readRangeFrom_turns` — on any pages
      the loops end: more turns than pages change nothing;
    * `overflow_values_round_trip` — all of it, for the values written and for every
      graph of overflow pages.
-/
import Pagedb.BTree.Reach
import Pagedb.BTree.Sweep
import Pagedb.BTree.Total
import Pagedb.Lib.Bytes
import Pagedb.Lib.Layout

namespace Pagedb

open Lib List

/-! ## §1. The bytes of a chain page -/

/-- Why an overflow body is refused. -/
inductive OverflowFault where
  | payloadTooLarge
  | malformed (field : String)
  deriving DecidableEq, Repr

/-- The header of an overflow body: a reference count of `pre` bytes, which only
    a root has, the link, and the length of the data. -/
def overflowHeader (pre refcount : Nat) (next : PageId) (dataLen : Nat) : Bytes :=
  leBytes pre refcount ++ (leBytes 8 next ++ leBytes 4 dataLen)

/-- A body of `encode_overflow` or `encode_overflow_root`: header and data in a
    body of zeros. -/
def encodeOverflowBody (pre refcount pageSize : Nat) (next : PageId) (data : Bytes) :
    Except OverflowFault Bytes := do
  let cap := pageSize - ENVELOPE_OVERHEAD - (pre + OVERFLOW_HEADER_LEN)
  require (data.length ≤ cap) .payloadTooLarge
  pure (overflowHeader pre refcount next data.length
    ++ (data ++ List.replicate (cap - data.length) 0))

/-- `encode_overflow`. -/
def encodeOverflow (pageSize : Nat) (next : PageId) (data : Bytes) : Except OverflowFault Bytes :=
  encodeOverflowBody 0 0 pageSize next data

/-- `encode_overflow_root`. -/
def encodeOverflowRoot (pageSize refcount : Nat) (next : PageId) (data : Bytes) :
    Except OverflowFault Bytes :=
  encodeOverflowBody 4 refcount pageSize next data

/-- A body read by `decode_overflow` or `decode_overflow_root`. -/
def decodeOverflowBody (pre : Nat) (label : String) (body : Bytes) :
    Except OverflowFault (Nat × PageId × Bytes) := do
  require (pre + OVERFLOW_HEADER_LEN ≤ body.length) (.malformed (label ++ ".header_length"))
  let refcount := ofLeBytes (slice body 0 pre)
  let next := ofLeBytes (slice body pre 8)
  let dataLen := ofLeBytes (slice body (pre + 8) 4)
  require (pre + 12 + dataLen ≤ body.length) (.malformed (label ++ ".data_length"))
  pure (refcount, next, slice body (pre + 12) dataLen)

/-- `decode_overflow`. -/
def decodeOverflow (body : Bytes) : Except OverflowFault (PageId × Bytes) := do
  let (_, next, data) ← decodeOverflowBody 0 "chain_page" body
  pure (next, data)

/-- `decode_overflow_root`. -/
def decodeOverflowRoot (body : Bytes) : Except OverflowFault (Nat × PageId × Bytes) :=
  decodeOverflowBody 4 "root" body

theorem overflowHeader_length (pre refcount : Nat) (next : PageId) (dataLen : Nat) :
    (overflowHeader pre refcount next dataLen).length = pre + 12 := by
  unfold overflowHeader
  simp only [length_append, leBytes_length]

/-- **A body that fits is read back as it was written.** -/
theorem decodeOverflowBody_encode {pre refcount pageSize : Nat} {next : PageId} {data : Bytes}
    (label : String) (hcount : refcount < 256 ^ pre) (hnext : next ≤ U64_MAX)
    (hsmall : data.length < 256 ^ 4)
    (hroom : data.length ≤ pageSize - ENVELOPE_OVERHEAD - (pre + OVERFLOW_HEADER_LEN)) :
    (encodeOverflowBody pre refcount pageSize next data >>= decodeOverflowBody pre label)
      = .ok (refcount, next, data) := by
  have hnext : next < 256 ^ 8 := Nat.lt_of_le_of_lt hnext (by decide)
  unfold encodeOverflowBody
  dsimp only
  rw [require_bind hroom]
  generalize hpad : List.replicate (pageSize - ENVELOPE_OVERHEAD - (pre + OVERFLOW_HEADER_LEN)
    - data.length) (0 : UInt8) = pad
  have hlen : (overflowHeader pre refcount next data.length ++ (data ++ pad)).length
      = pre + 12 + (data.length + pad.length) := by
    rw [length_append, overflowHeader_length, length_append]
  have hbytes : overflowHeader pre refcount next data.length ++ (data ++ pad)
      = leBytes pre refcount ++ (leBytes 8 next ++ (leBytes 4 data.length ++ (data ++ pad))) := by
    unfold overflowHeader
    simp only [append_assoc]
  show decodeOverflowBody pre label (overflowHeader pre refcount next data.length ++ (data ++ pad))
    = _
  unfold decodeOverflowBody
  rw [require_bind (by rw [hlen]; unfold OVERFLOW_HEADER_LEN; omega)]
  have hcountAt : slice (overflowHeader pre refcount next data.length ++ (data ++ pad)) 0 pre
      = leBytes pre refcount := by
    rw [hbytes]
    exact @slice_mid _ [] _ _ 0 pre rfl (leBytes_length pre _)
  have hnextAt : slice (overflowHeader pre refcount next data.length ++ (data ++ pad)) pre 8
      = leBytes 8 next := by
    rw [hbytes]
    exact slice_mid (leBytes_length pre _) (leBytes_length 8 _)
  have hlenAt : slice (overflowHeader pre refcount next data.length ++ (data ++ pad)) (pre + 8) 4
      = leBytes 4 data.length := by
    rw [hbytes, ← append_assoc]
    exact slice_mid (by simp) (leBytes_length 4 _)
  have hdataAt : slice (overflowHeader pre refcount next data.length ++ (data ++ pad)) (pre + 12)
      data.length = data :=
    slice_mid (overflowHeader_length pre refcount next data.length) rfl
  dsimp only
  rw [hcountAt, hnextAt, hlenAt, ofLeBytes_leBytes_of_lt hcount,
    ofLeBytes_leBytes_of_lt hnext, ofLeBytes_leBytes_of_lt hsmall, hdataAt,
    require_bind (by rw [hlen]; omega)]
  rfl

/-- A page of a chain, as its body is encoded and decoded again. -/
def Page.recoded (pageSize : Nat) : Page → Except OverflowFault Page
  | .overflow next data => do
    let (next, data) ← encodeOverflow pageSize next data >>= decodeOverflow
    pure (.overflow next data)
  | .overflowRoot refcount next data => do
    let (refcount, next, data) ← encodeOverflowRoot pageSize refcount next data
      >>= decodeOverflowRoot
    pure (.overflowRoot refcount next data)
  | page => pure page

theorem Page.Sized.chain_le {pageSize : Nat} {next : PageId} {data : Bytes}
    (h : (Page.overflow next data).Sized pageSize) : data.length ≤ pageSize := by
  have h : data.length ≤ pageSize - ENVELOPE_OVERHEAD - OVERFLOW_HEADER_LEN := h
  omega

theorem Page.Sized.root_le {pageSize refcount : Nat} {next : PageId} {data : Bytes}
    (h : (Page.overflowRoot refcount next data).Sized pageSize) : data.length ≤ pageSize := by
  have h : data.length ≤ pageSize - ENVELOPE_OVERHEAD - OVERFLOW_ROOT_HEADER_LEN := h
  omega

/-- The page's chunk fits, and its integers are `u32` and `u64`. -/
def Page.ChunkFits (pageSize : Nat) : Page → Prop
  | .overflow next data => (Page.overflow next data).Sized pageSize ∧ pageSize < 256 ^ 4
    ∧ next ≤ U64_MAX
  | .overflowRoot refcount next data => (Page.overflowRoot refcount next data).Sized pageSize
    ∧ pageSize < 256 ^ 4 ∧ next ≤ U64_MAX ∧ refcount < 256 ^ 4
  | _ => True

theorem Page.recoded_eq {pageSize : Nat} {page : Page} (h : page.ChunkFits pageSize) :
    page.recoded pageSize = .ok page := by
  cases page with
  | overflow next data =>
    obtain ⟨hroom, hsize, hnext⟩ := h
    have hsmall := Nat.lt_of_le_of_lt (Page.Sized.chain_le hroom) hsize
    have hbody := @decodeOverflowBody_encode 0 0 pageSize next data "chain_page" (by decide) hnext
      hsmall hroom
    obtain ⟨body, hencode, hdecode⟩ := except_bind_eq_ok.mp hbody
    have hpair : decodeOverflow body = .ok (next, data) := ok_bind hdecode
    have hboth : (encodeOverflow pageSize next data >>= decodeOverflow) = .ok (next, data) := by
      rw [← hpair]
      exact ok_bind hencode
    exact ok_bind hboth
  | overflowRoot refcount next data =>
    obtain ⟨hroom, hsize, hnext, hcount⟩ := h
    have hsmall := Nat.lt_of_le_of_lt (Page.Sized.root_le hroom) hsize
    have hbody := @decodeOverflowBody_encode 4 refcount pageSize next data "root" hcount hnext
      hsmall hroom
    exact ok_bind hbody
  | _ => rfl

/-! ## §2. A chain, and what the loops return for it -/

/-- The pager holds the chain `pages` from `root`, with this reference count, and
    its data spell `bytes`. -/
structure OverflowChain (pager : Pager) (root : PageId) (refcount : Nat) (pages : List PageId)
    (bytes : Bytes) : Prop where
  held : ∃ next chunk rest, pager.page root = some (.overflowRoot refcount next chunk)
    ∧ bytes = chunk ++ rest ∧ ChainFrom pager pages next rest
  distinct : (root :: pages).Nodup
  nonzero : 0 ∉ pages

section Chains

variable {s s' : Session} {root : PageId} {refcount : Nat} {pages : List PageId} {bytes : Bytes}

theorem Session.Quiet.pageCount (h : s.Quiet s') : s'.pager.pageCount = s.pager.pageCount := by
  obtain ⟨faults, rfl⟩ := h
  rfl

/-- `collect_chain` lists the chain. -/
theorem collectChain_returns (h : OverflowChain s.pager root refcount pages bytes) :
    Returns Session.Clear (collectChain root) s fun r t => r = root :: pages ∧ s.Quiet t := by
  obtain ⟨next, chunk, rest, hpage, -, hrest⟩ := h.held
  unfold collectChain
  refine (readRootPage_returns hpage).bind fun r t hr => ?_
  obtain ⟨rfl, hq⟩ := hr
  refine Returns.get ?_
  refine (walkRest_returns (hrest.congr fun q _ => hq.page q) h.distinct h.nonzero).bind
    fun r u hr => ?_
  rw [hr.1]
  exact Returns.pure ⟨rfl, hq.trans hr.2⟩

/-! ### Windows -/

variable {start stop : Nat} {next : PageId} {α : Type}

/-- Of the bytes up to and with a chunk, the part inside the window. -/
theorem takeWindow_eq {front chunk : Bytes} (hlt : start < stop) (hfront : front.length < stop)
    (hlen : front.length + chunk.length ≤ U64_MAX) (s : Session) :
    takeWindow start stop front.length chunk ((front.take stop).drop start) s
      = .ok (((front ++ chunk).take stop).drop start,
          decide (stop ≤ front.length + chunk.length)) s := by
  have hsat : satAdd front.length chunk.length = front.length + chunk.length := Nat.min_eq_left hlen
  have htake : (front ++ chunk).take stop = front ++ chunk.take (stop - front.length) := by
    rw [take_append, take_of_length_le (Nat.le_of_lt hfront)]
  have hout : (front.take stop).drop start = front.drop start := by
    rw [take_of_length_le (Nat.le_of_lt hfront)]
  unfold takeWindow
  rw [hsat, hout, htake, drop_append]
  by_cases hin : start < front.length + chunk.length
  · rw [if_pos hin, if_neg (by omega)]
    have hcut : chunk.take (min (stop - front.length) chunk.length)
        = chunk.take (stop - front.length) := by
      rcases Nat.le_total (stop - front.length) chunk.length with hle | hle
      · rw [Nat.min_eq_left hle]
      · rw [Nat.min_eq_right hle, take_length, take_of_length_le hle]
    have hends : decide (stop ≤ front.length + min (stop - front.length) chunk.length)
        = decide (stop ≤ front.length + chunk.length) := by
      refine decide_eq_decide.mpr ?_
      omega
    rw [if_neg (by omega), hcut, hends]
    rfl
  · rw [if_neg hin]
    have hnone : front.drop start ++ (chunk.take (stop - front.length)).drop (start - front.length)
        = front.drop start := by
      rw [drop_of_length_le (l := chunk.take _), append_nil]
      rw [length_take]
      omega
    have hends : decide (stop ≤ front.length + chunk.length) = false := decide_eq_false (by omega)
    rw [hnone, hends]
    rfl

/-- The loop of `read_chain_range`.  What it has taken is the window's part of the
    bytes it walked past; it stops in the chunk where the window ends. -/
theorem readRangeFrom_returns {start stop : Nat} (hlt : start < stop) (pages : List PageId) :
    ∀ (turns : Nat) (seen : List PageId) (link : PageId) (front chunk rest : Bytes) (s : Session),
      ChainFrom s.pager pages link rest → (seen ++ pages).Nodup → 0 ∉ pages →
      pages.length < turns → front.length < stop → stop ≤ (front ++ chunk ++ rest).length →
      (front ++ chunk ++ rest).length ≤ U64_MAX →
      Returns Session.Clear (readRangeFrom start stop turns seen front.length chunk link
        ((front.take stop).drop start)) s
        fun r s' => r = ((front ++ chunk ++ rest).take stop).drop start ∧ s.Quiet s' := by
  -- the window's part of the chunk is taken in every case
  have hturn : ∀ (turns : Nat) (seen : List PageId) (link : PageId) (front chunk rest : Bytes)
      (s : Session), front.length < stop → (front ++ chunk ++ rest).length ≤ U64_MAX →
      (front.length + chunk.length < stop → Returns Session.Clear (followLink seen link
          (if (((front ++ chunk).take stop).drop start).length = stop - start then
            pure (((front ++ chunk).take stop).drop start)
          else throw .overflowBodyMalformed)
          fun (after, data) => readRangeFrom start stop turns (link :: seen)
            (satAdd front.length chunk.length) data after (((front ++ chunk).take stop).drop start)) s
        fun r s' => r = ((front ++ chunk ++ rest).take stop).drop start ∧ s.Quiet s') →
      Returns Session.Clear (readRangeFrom start stop (turns + 1) seen front.length chunk link
        ((front.take stop).drop start)) s
        fun r s' => r = ((front ++ chunk ++ rest).take stop).drop start ∧ s.Quiet s' := by
    intro turns seen link front chunk rest s hfront hmax hgo
    rw [length_append, length_append] at hmax
    have hstep := takeWindow_eq hlt hfront (by omega : front.length + chunk.length ≤ U64_MAX) s
    unfold readRangeFrom
    refine Returns.bind (P := fun r t => r = (((front ++ chunk).take stop).drop start,
      decide (stop ≤ front.length + chunk.length)) ∧ t = s) ⟨?_, fun hs => ⟨_, s, hstep, hs⟩⟩ ?_
    · intro r t hrun
      rw [hstep] at hrun
      cases hrun
      exact ⟨rfl, rfl⟩
    · rintro _ _ ⟨rfl, rfl⟩
      dsimp only
      by_cases hdone : stop ≤ front.length + chunk.length
      · rw [decide_eq_true hdone, if_pos rfl]
        have hcut : (front ++ chunk ++ rest).take stop = (front ++ chunk).take stop :=
          take_append_of_le_length (by rw [length_append]; exact hdone)
        rw [hcut]
        exact Returns.pure ⟨rfl, Session.Quiet.refl _⟩
      · rw [decide_eq_false hdone, if_neg Bool.false_ne_true]
        exact hgo (Nat.lt_of_not_le hdone)
  induction pages with
  | nil =>
    intro turns seen link front chunk rest s hchain _ _ hturns hfront hstop hmax
    obtain ⟨turns, rfl⟩ := Nat.exists_eq_succ_of_ne_zero (Nat.ne_of_gt hturns)
    obtain ⟨rfl, rfl⟩ := hchain
    refine hturn turns seen 0 front chunk [] s hfront hmax fun hmore => ?_
    rw [length_append, length_append, length_nil] at hstop
    omega
  | cons p pages ih =>
    intro turns seen link front chunk rest s hchain hnodup hzero hturns hfront hstop hmax
    obtain ⟨turns, rfl⟩ := Nat.exists_eq_succ_of_ne_zero
      (Nat.ne_of_gt (Nat.lt_of_le_of_lt (Nat.zero_le _) hturns))
    obtain ⟨rfl, next, data, rest', hpage, rfl, hrest⟩ := hchain
    refine hturn turns seen link front chunk (data ++ rest') s hfront hmax fun hmore =>
      followLink_returns hpage hnodup hzero fun t hq => ?_
    dsimp only
    have hassoc : front ++ chunk ++ (data ++ rest') = front ++ chunk ++ data ++ rest' :=
      (append_assoc _ _ _).symm
    rw [hassoc] at hstop hmax ⊢
    have hsat : satAdd front.length chunk.length = (front ++ chunk).length := by
      rw [length_append]
      refine Nat.min_eq_left ?_
      rw [length_append, length_append, length_append] at hmax
      omega
    rw [hsat]
    refine (ih turns (link :: seen) next (front ++ chunk) data rest' t
      (hrest.congr fun q _ => hq.page q) ((perm_middle.nodup_iff).mp hnodup)
      (fun h => hzero (mem_cons_of_mem _ h)) (Nat.lt_of_succ_lt_succ hturns)
      (by rw [length_append]; exact hmore) hstop hmax).weaken fun r u hr => ?_
    exact ⟨hr.1, hq.trans hr.2⟩

/-- The clamped window is the one asked for. -/
theorem take_windowEnd {offset len : Nat} (h : bytes.length ≤ U64_MAX) :
    (bytes.take (windowEnd (min offset bytes.length) len bytes.length)).drop
      (min offset bytes.length) = (bytes.drop offset).take len := by
  have hdrop : bytes.drop (min offset bytes.length) = bytes.drop offset := by
    rcases Nat.le_total offset bytes.length with hle | hle
    · rw [Nat.min_eq_left hle]
    · rw [Nat.min_eq_right hle, drop_of_length_le (Nat.le_refl _), drop_of_length_le hle]
  unfold windowEnd
  split_ifs with hsum
  · rw [drop_take, hdrop]
    by_cases hlen : min offset bytes.length + len ≤ bytes.length
    · rw [Nat.min_eq_left hlen, Nat.add_sub_cancel_left]
    · rw [Nat.min_eq_right (by omega), take_of_length_le, take_of_length_le]
      · rw [length_drop]
        omega
      · rw [length_drop]
        omega
  · rw [take_length, hdrop, take_of_length_le]
    rw [length_drop]
    omega

/-- **A window read is that window of the value.** -/
theorem readChainRange_returns (h : OverflowChain s.pager root refcount pages bytes)
    (hmax : bytes.length ≤ ISIZE_MAX) (offset len : Nat) :
    Returns Session.Clear (readChainRange root bytes.length offset len) s fun r t =>
      r = (bytes.drop offset).take len ∧ s.Quiet t := by
  have hsmall : bytes.length ≤ U64_MAX := Nat.le_trans hmax (by decide)
  rw [← take_windowEnd hsmall]
  unfold readChainRange
  rw [if_neg (by omega)]
  dsimp only
  generalize hstop : windowEnd (min offset bytes.length) len bytes.length = stop
  have hle : stop ≤ bytes.length := by
    rw [← hstop]
    unfold windowEnd
    split <;> omega
  split_ifs with hnone
  · refine Returns.pure ⟨?_, Session.Quiet.refl s⟩
    rw [drop_of_length_le (by rw [length_take]; omega)]
  · obtain ⟨next, chunk, rest, hpage, rfl, hrest⟩ := h.held
    refine (readRootPage_returns hpage).bind fun r t hr => ?_
    obtain ⟨rfl, hq⟩ := hr
    refine Returns.get ?_
    have hrest := hrest.congr fun q _ => hq.page q
    have hread := @readRangeFrom_returns _ _ (Nat.lt_of_not_le hnone) pages _ [root] next [] chunk rest
      t hrest h.distinct h.nonzero (hrest.turns (nodup_cons.mp h.distinct).2)
      (show 0 < stop by omega) hle hsmall
    rw [take_nil, drop_nil] at hread
    exact hread.weaken fun r u hr => ⟨hr.1, hq.trans hr.2⟩

/-- **What a successful `read_chain` says**: the pages are a chain that spells the
    value. -/
theorem readChainFrom_sound {totalLen : Nat} (turns : Nat) :
    ∀ {seen : List PageId} {next : PageId} {out v : Bytes} {s t : Session},
      seen.Nodup → readChainFrom totalLen turns seen next out s = .ok v t →
      s.Quiet t ∧ ∃ pages rest, v = out ++ rest ∧ ChainFrom s.pager pages next rest
        ∧ (seen ++ pages).Nodup ∧ 0 ∉ pages := by
  induction turns with
  | zero =>
    intro seen next out v s t _ h
    exact (throw_eq_ok.mp h).elim
  | succ turns ih =>
    intro seen next out v s t hseen h
    unfold readChainFrom at h
    split_ifs at h with hzero hcycle
    · cases h
      exact ⟨Session.Quiet.refl s, [], [], (append_nil _).symm, ⟨hzero, rfl⟩, by
        rwa [append_nil], not_mem_nil⟩
    · cases h
    · obtain ⟨⟨after, data⟩, u, hread, h⟩ := bind_eq_ok.mp h
      obtain ⟨hpage, hq⟩ := readChainPage_eq_ok hread
      dsimp only at h
      split_ifs at h with hlong
      · cases h
      · have hnew : next ∉ seen := fun hmem => hcycle (contains_iff_mem.mpr hmem)
        obtain ⟨hq', pages, rest, rfl, hrest, hnodup, hnonzero⟩ :=
          ih (nodup_cons.mpr ⟨hnew, hseen⟩) h
        refine ⟨hq.trans hq', next :: pages, data ++ rest, append_assoc _ _ _,
          ⟨rfl, after, data, rest, hpage, rfl, hrest.congr fun q _ => (hq.page q).symm⟩,
          (perm_middle.nodup_iff).mpr hnodup, ?_⟩
        rintro (_ | ⟨_, hmem⟩)
        · exact hzero rfl
        · exact hnonzero hmem

theorem readChain_sound {totalLen : Nat} {v : Bytes} (h : readChain root totalLen s = .ok v s') :
    v.length = totalLen ∧ ∃ refcount pages, OverflowChain s.pager root refcount pages v := by
  unfold readChain at h
  obtain ⟨⟨refcount, next, data⟩, t, hread, h⟩ := bind_eq_ok.mp h
  obtain ⟨hpage, hq⟩ := readRootPage_eq_ok hread
  dsimp only at h
  split_ifs at h with hlong
  · cases h
  · rw [get_bind] at h
    obtain ⟨out, u, hloop, h⟩ := bind_eq_ok.mp h
    split_ifs at h with hlen
    · cases h
      obtain ⟨-, pages, rest, rfl, hrest, hnodup, hzero⟩ :=
        readChainFrom_sound _ (nodup_singleton root) hloop
      exact ⟨hlen, refcount, pages, ⟨next, data, rest, hpage, rfl,
        hrest.congr fun q _ => (hq.page q).symm⟩, hnodup, hzero⟩
    · cases h

/-! ## §3. The loops end on any pages -/

/-- The distinct pages a loop has visited. -/
structure Visited (p : Pager) (seen : List PageId) : Prop where
  distinct : seen.Nodup
  present : ∀ q ∈ seen, (p.page q).isSome

theorem Visited.length_le {p : Pager} {seen : List PageId} (h : Visited p seen) :
    seen.length ≤ p.pageCount := Pager.length_le_pageCount h.distinct h.present

/-- Reading one more page of a chain. -/
theorem Visited.read {seen : List PageId} {after : PageId} {data : Bytes} (h : Visited s.pager seen)
    (hnew : ¬ seen.contains next = true) (hread : readChainPage next s = .ok (after, data) s') :
    Visited s'.pager (next :: seen) ∧ s'.pager.pageCount = s.pager.pageCount := by
  obtain ⟨hpage, hq⟩ := readChainPage_eq_ok hread
  refine ⟨⟨nodup_cons.mpr ⟨fun hmem => hnew (contains_iff_mem.mpr hmem), h.distinct⟩, ?_⟩,
    hq.pageCount⟩
  intro q hmem
  rw [hq.page]
  rcases mem_cons.mp hmem with rfl | hmem
  · exact Option.isSome_iff_exists.mpr ⟨_, hpage⟩
  · exact h.present q hmem

theorem bind_congr_at {β : Type} {x : TreeM α} {f g : α → TreeM β}
    (h : ∀ a t, x s = .ok a t → f a t = g a t) : (x >>= f) s = (x >>= g) s := by
  cases hx : x s with
  | ok a t =>
    rw [bind_of_ok hx, bind_of_ok hx]
    exact h a t hx
  | error e t => rw [bind_of_error hx, bind_of_error hx]

/-- A link is followed alike by loops that agree after it. -/
theorem followLink_congr {seen : List PageId} {stop : TreeM α} {go go' : PageId × Bytes → TreeM α}
    (hseen : Visited s.pager seen)
    (h : ∀ r t, Visited t.pager (next :: seen) → t.pager.pageCount = s.pager.pageCount →
      go r t = go' r t) : followLink seen next stop go s = followLink seen next stop go' s := by
  unfold followLink
  split_ifs with hzero hcycle
  · rfl
  · rfl
  · refine bind_congr_at fun r t hread => ?_
    obtain ⟨hseen', hcount⟩ := hseen.read hcycle hread
    exact h r t hseen' hcount

/-- **The walk of `release` and `collect_chain` ends**: from a walk that has as
    many turns left as there are unvisited pages, more turns change nothing. -/
theorem walkChain_turns (more : Nat) (turns : Nat) :
    ∀ {seen : List PageId} {cur : PageId} {s : Session}, Visited s.pager seen →
      s.pager.pageCount < turns + seen.length →
      walkChain (turns + more) seen cur s = walkChain turns seen cur s := by
  induction turns with
  | zero =>
    intro seen cur s hseen hturns
    have := hseen.length_le
    omega
  | succ turns ih =>
    intro seen cur s hseen hturns
    rw [Nat.add_right_comm]
    refine followLink_congr hseen fun r t hseen' hcount => ?_
    have hsame := @ih (cur :: seen) r.1 t hseen' (by rw [hcount, length_cons]; omega)
    dsimp only
    cases hwalk : walkChain turns (cur :: seen) r.1 t with
    | ok rest u => rw [bind_of_ok (hsame.trans hwalk), bind_of_ok hwalk]
    | error e u => rw [bind_of_error (hsame.trans hwalk), bind_of_error hwalk]

/-- **The loop of `read_chain` ends.** -/
theorem readChainFrom_turns (totalLen more : Nat) (turns : Nat) :
    ∀ {seen : List PageId} {next : PageId} {out : Bytes} {s : Session}, Visited s.pager seen →
      s.pager.pageCount < turns + seen.length →
      readChainFrom totalLen (turns + more) seen next out s
        = readChainFrom totalLen turns seen next out s := by
  induction turns with
  | zero =>
    intro seen next out s hseen hturns
    have := hseen.length_le
    omega
  | succ turns ih =>
    intro seen next out s hseen hturns
    rw [Nat.add_right_comm]
    refine followLink_congr hseen fun r t hseen' hcount => ?_
    dsimp only
    split_ifs with hlong
    · rfl
    · exact ih hseen' (by rw [hcount, length_cons]; omega)

theorem takeWindow_state {consumed : Nat} {chunk out : Bytes} {r : Bytes × Bool} {t : Session}
    (h : takeWindow start stop consumed chunk out s = .ok r t) : t = s := by
  unfold takeWindow at h
  dsimp only at h
  split_ifs at h <;> cases h <;> rfl

/-- **The loop of `read_chain_range` ends.** -/
theorem readRangeFrom_turns (start stop more : Nat) (turns : Nat) :
    ∀ {seen : List PageId} {consumed : Nat} {chunk out : Bytes} {next : PageId} {s : Session},
      Visited s.pager seen → s.pager.pageCount < turns + seen.length →
      readRangeFrom start stop (turns + more) seen consumed chunk next out s
        = readRangeFrom start stop turns seen consumed chunk next out s := by
  induction turns with
  | zero =>
    intro seen consumed chunk out next s hseen hturns
    have := hseen.length_le
    omega
  | succ turns ih =>
    intro seen consumed chunk out next s hseen hturns
    rw [Nat.add_right_comm]
    unfold readRangeFrom
    refine bind_congr_at fun r t hwindow => ?_
    obtain ⟨taken, done⟩ := r
    obtain rfl := takeWindow_state hwindow
    dsimp only
    cases done with
    | true => rfl
    | false =>
      exact followLink_congr hseen fun r u hseen' hcount =>
        ih hseen' (by rw [hcount, length_cons]; omega)

/-! ## §4. What the loops fail with -/

/-- A link of the graph: to no page, to a chain page, or to the root of a chain. -/
def ChainLink (pager : Pager) (next : PageId) : Prop :=
  next = 0 ∨ (∃ after data, pager.page next = some (.overflow after data))
    ∨ ∃ refcount after data, pager.page next = some (.overflowRoot refcount after data)

/-- The pages are a graph of overflow pages: the links may form cycles, end in
    another value's root, and the data may have any length. -/
structure OverflowGraph (pager : Pager) : Prop where
  chain : ∀ id next data, pager.page id = some (.overflow next data) → ChainLink pager next
  start : ∀ id refcount next data, pager.page id = some (.overflowRoot refcount next data) →
    ChainLink pager next

/-- The corruption errors of the chain loops. -/
def ChainCorrupt (e : TreeError) : Prop :=
  e = .overflowChainCycle ∨ e = .overflowBodyMalformed ∨ e = .illegalPageKind

theorem OverflowGraph.quiet (h : OverflowGraph s.pager) (hq : s.Quiet s') :
    OverflowGraph s'.pager := by
  obtain ⟨faults, rfl⟩ := hq
  exact ⟨h.chain, h.start⟩

theorem ChainLink.quiet (h : ChainLink s.pager next) (hq : s.Quiet s') :
    ChainLink s'.pager next := by
  obtain ⟨faults, rfl⟩ := hq
  exact h

theorem failsOnly_of_returns {β : Type} {E : TreeError → Prop} {x : TreeM α} {f : α → TreeM β}
    {Q : α → Session → Prop} (hx : Returns Session.Clear x s Q) (hs : s.Clear)
    (hf : ∀ a t, Q a t → t.Clear → FailsOnly E (f a) t) : FailsOnly E (x >>= f) s := by
  intro e u h
  obtain ⟨a, t, hrun, ht⟩ := hx.total hs
  rw [bind_of_ok hrun] at h
  exact hf a t (hx.sound a t hrun) ht e u h

/-- In the graph a page is read, or is a root where a chain page is expected. -/
theorem OverflowGraph.read {f : PageId × Bytes → TreeM α} (h : OverflowGraph s.pager) (hs : s.Clear)
    (hlink : ChainLink s.pager next) (hne : next ≠ 0)
    (hf : ∀ after data t, t.Clear → OverflowGraph t.pager → ChainLink t.pager after →
      FailsOnly ChainCorrupt (f (after, data)) t) :
    FailsOnly ChainCorrupt (readChainPage next >>= f) s := by
  rcases hlink with hzero | ⟨after, data, hpage⟩ | ⟨refcount, after, data, hpage⟩
  · exact absurd hzero hne
  · refine failsOnly_of_returns (readChainPage_returns hpage) hs fun r t hr ht => ?_
    rw [hr.1]
    exact hf after data t ht (h.quiet hr.2) ((h.chain next after data hpage).quiet hr.2)
  · have hkind : FailsOnly ChainCorrupt (readChainPage next) s := by
      unfold readChainPage
      refine failsOnly_of_returns (readPage_returns hpage) hs fun page t hr _ => ?_
      rw [hr.1]
      exact FailsOnly.throw (Or.inr (Or.inr rfl))
    refine hkind.bind fun r t hread => ?_
    have hwrong := (readChainPage_eq_ok hread).1
    exact absurd (hpage.symm.trans hwrong) (by simp)

theorem OverflowGraph.follow {seen : List PageId} {stop : TreeM α} {go : PageId × Bytes → TreeM α}
    (h : OverflowGraph s.pager) (hs : s.Clear) (hlink : ChainLink s.pager next)
    (hstop : FailsOnly ChainCorrupt stop s)
    (hgo : ∀ after data t, t.Clear → OverflowGraph t.pager → ChainLink t.pager after →
      FailsOnly ChainCorrupt (go (after, data)) t) :
    FailsOnly ChainCorrupt (followLink seen next stop go) s := by
  unfold followLink
  split_ifs with hzero hcycle
  · exact hstop
  · exact FailsOnly.throw (Or.inl rfl)
  · exact h.read hs hlink hzero hgo

theorem walkChain_fails (turns : Nat) :
    ∀ {seen : List PageId} {cur : PageId} {s : Session}, s.Clear → OverflowGraph s.pager →
      ChainLink s.pager cur → FailsOnly ChainCorrupt (walkChain turns seen cur) s := by
  induction turns with
  | zero => exact fun _ _ _ => FailsOnly.throw (Or.inl rfl)
  | succ turns ih =>
    intro seen cur s hs hg hlink
    refine hg.follow hs hlink (FailsOnly.pure _) fun after data t ht hg' hlink' => ?_
    exact (ih ht hg' hlink').bind fun _ _ _ => FailsOnly.pure _

theorem readChainFrom_fails (totalLen turns : Nat) :
    ∀ {seen : List PageId} {next : PageId} {out : Bytes} {s : Session}, s.Clear →
      OverflowGraph s.pager → ChainLink s.pager next →
      FailsOnly ChainCorrupt (readChainFrom totalLen turns seen next out) s := by
  induction turns with
  | zero => exact fun _ _ _ => FailsOnly.throw (Or.inl rfl)
  | succ turns ih =>
    intro seen next out s hs hg hlink
    refine hg.follow hs hlink (FailsOnly.pure _) fun after data t ht hg' hlink' => ?_
    dsimp only
    split_ifs with hlong
    · exact FailsOnly.throw (Or.inr (Or.inl rfl))
    · exact ih ht hg' hlink'

/-- Before the window's end, neither the subtraction nor the slice can go wrong. -/
theorem takeWindow_total {consumed : Nat} (hlt : start < stop) (hc : consumed < stop)
    (chunk out : Bytes) (s : Session) :
    ∃ taken done, takeWindow start stop consumed chunk out s = .ok (taken, done) s
      ∧ (done = false → satAdd consumed chunk.length < stop) := by
  have hsat : satAdd consumed chunk.length ≤ consumed + chunk.length := Nat.min_le_left _ _
  unfold takeWindow
  by_cases hin : start < satAdd consumed chunk.length
  · rw [if_pos hin, if_neg (by omega), if_neg (by omega)]
    refine ⟨_, _, rfl, fun hdone => ?_⟩
    have hmore := of_decide_eq_false hdone
    omega
  · rw [if_neg hin]
    exact ⟨_, _, rfl, fun _ => by omega⟩

theorem readRangeFrom_fails (hlt : start < stop) (turns : Nat) :
    ∀ {seen : List PageId} {consumed : Nat} {chunk out : Bytes} {next : PageId} {s : Session},
      s.Clear → OverflowGraph s.pager → ChainLink s.pager next → consumed < stop →
      FailsOnly ChainCorrupt (readRangeFrom start stop turns seen consumed chunk next out) s := by
  induction turns with
  | zero =>
    intro seen consumed chunk out next s _ _ _ _
    exact FailsOnly.throw (Or.inl rfl)
  | succ turns ih =>
    intro seen consumed chunk out next s hs hg hlink hc
    unfold readRangeFrom
    obtain ⟨taken, done, hwindow, hmore⟩ := takeWindow_total hlt hc chunk out s
    intro e u hrun
    rw [bind_of_ok hwindow] at hrun
    revert e u hrun
    dsimp only
    cases done with
    | true => exact FailsOnly.pure _
    | false =>
      refine hg.follow hs hlink ?_ fun after data t ht hg' hlink' => ih ht hg' hlink' (hmore rfl)
      split_ifs with hlen
      · exact FailsOnly.pure _
      · exact FailsOnly.throw (Or.inr (Or.inl rfl))

/-- The root page of the graph is read, and what follows it may assume its link. -/
theorem OverflowGraph.readRoot {f : Nat × PageId × Bytes → TreeM α} (h : OverflowGraph s.pager)
    (hs : s.Clear)
    (hroot : ∃ refcount next data, s.pager.page root = some (.overflowRoot refcount next data))
    (hf : ∀ refcount next data t, t.Clear → OverflowGraph t.pager → ChainLink t.pager next →
      FailsOnly ChainCorrupt (f (refcount, next, data)) t) :
    FailsOnly ChainCorrupt (readRootPage root >>= f) s := by
  obtain ⟨refcount, next, data, hpage⟩ := hroot
  refine failsOnly_of_returns (readRootPage_returns hpage) hs fun r t hr ht => ?_
  rw [hr.1]
  exact hf refcount next data t ht (h.quiet hr.2) ((h.start _ _ _ _ hpage).quiet hr.2)

/-- The four functions that walk a chain. -/
theorem OverflowGraph.fails (h : OverflowGraph s.pager) (hs : s.Clear)
    (hroot : ∃ refcount next data, s.pager.page root = some (.overflowRoot refcount next data))
    (totalLen offset len : Nat) (newPage : PageId) :
    FailsOnly ChainCorrupt (readChainChecked root totalLen) s
      ∧ FailsOnly ChainCorrupt (readChainRange root totalLen offset len) s
      ∧ FailsOnly ChainCorrupt (collectChain root) s
      ∧ FailsOnly ChainCorrupt (release root newPage) s := by
  refine ⟨?_, ?_, ?_, ?_⟩
  · unfold readChainChecked
    split_ifs with hbig
    · exact FailsOnly.throw (Or.inr (Or.inl rfl))
    · refine h.readRoot hs hroot fun refcount next data t ht hg hlink => ?_
      dsimp only
      split_ifs with hlong
      · exact FailsOnly.throw (Or.inr (Or.inl rfl))
      · refine FailsOnly.get ((readChainFrom_fails _ _ ht hg hlink).bind fun out u _ => ?_)
        split_ifs with hlen
        · exact FailsOnly.pure _
        · exact FailsOnly.throw (Or.inr (Or.inl rfl))
  · unfold readChainRange
    split_ifs with hbig
    · exact FailsOnly.throw (Or.inr (Or.inl rfl))
    · dsimp only
      split_ifs with hnone
      · exact FailsOnly.pure _
      · refine h.readRoot hs hroot fun refcount next data t ht hg hlink => ?_
        refine FailsOnly.get ?_
        exact readRangeFrom_fails (Nat.lt_of_not_le hnone) _ ht hg hlink (by omega)
  · unfold collectChain
    refine h.readRoot hs hroot fun refcount next data t ht hg hlink => ?_
    exact FailsOnly.get ((walkChain_fails _ ht hg hlink).bind fun _ _ _ => FailsOnly.pure _)
  · unfold release
    refine h.readRoot hs hroot fun refcount next data t ht hg hlink => ?_
    dsimp only
    split_ifs with hlast
    · exact FailsOnly.get ((walkChain_fails _ ht hg hlink).bind fun _ _ _ => FailsOnly.pure _)
    · intro e u herr
      obtain ⟨a, w, hwrite, -⟩ := writePage_ends ht
      rw [bind_of_ok hwrite] at herr
      cases herr

end Chains

/-! ## §5. Writing with any allocator -/

/-- The first `n + 1` answers of an allocator are distinct page ids. -/
structure HandsOut (alloc : Nat → PageId) (n : Nat) : Prop where
  distinct : ∀ i j, i ≤ n → j ≤ n → alloc i = alloc j → i = j
  nonzero : ∀ i, i ≤ n → alloc i ≠ 0
  inRange : ∀ i, i ≤ n → alloc i ≤ U64_MAX

section Write

variable {alloc : Nat → PageId} {N : Nat}

theorem writePage_returns {s : Session} (id : PageId) (page : Page) :
    Returns Session.Clear (writePage id page) s fun _ t =>
      t.pager.page id = some page ∧ s.Touches [id] t where
  sound := by
    intro u t hrun
    obtain ⟨pager, rfl, hpage, -⟩ := writePage_eq_ok hrun
    exact ⟨hpage, writePage_touches hrun⟩
  total := writePage_ends

theorem chainPage_fits {isRoot : Bool} {next : PageId} {value : Bytes} {pageSize : Nat}
    (hsize : pageSize < 256 ^ 4) (hnext : next ≤ U64_MAX) :
    (chainPage isRoot next (value.take (if isRoot then overflowRootCapacity pageSize
      else overflowPageCapacity pageSize))).ChunkFits pageSize := by
  have hsized := @chainPage_sized isRoot next value pageSize
  cases isRoot with
  | true => exact ⟨hsized, hsize, hnext, by decide⟩
  | false => exact ⟨hsized, hsize, hnext⟩

/-- The pages of the answers from `n` on. -/
def answers (alloc : Nat → PageId) (n count : Nat) : List PageId := (List.range' n count).map alloc

theorem mem_answers {n count : Nat} {q : PageId} :
    q ∈ answers alloc n count ↔ ∃ i, n ≤ i ∧ i < n + count ∧ alloc i = q := by
  unfold answers
  rw [mem_map]
  constructor
  · rintro ⟨i, hi, rfl⟩
    obtain ⟨h₁, h₂⟩ := mem_range'_1.mp hi
    exact ⟨i, h₁, h₂, rfl⟩
  · rintro ⟨i, h₁, h₂, rfl⟩
    exact ⟨i, mem_range'_1.mpr ⟨h₁, h₂⟩, rfl⟩

/-- **The loop of `write_chain`.**  Every page but the last is full, so what is
    left of the value and the answers used never add up to more than at first. -/
theorem writeChainFromBy_returns (ha : HandsOut alloc N) (turns : Nat) :
    ∀ {m n : Nat} {value : Bytes} {isRoot : Bool} {s : Session}, m < n → n + value.length ≤ N + 1 →
      m ≤ N → 0 < overflowRootCapacity s.pageSize → s.pageSize < 256 ^ 4 → value.length < turns →
      Returns Session.Clear (writeChainFromBy alloc turns n (alloc m) value isRoot) s fun _ t =>
        ∃ count next chunk rest, n + count ≤ N + 1
          ∧ t.pager.page (alloc m) = some (chainPage isRoot next chunk) ∧ value = chunk ++ rest
          ∧ ChainFrom t.pager (answers alloc n count) next rest
          ∧ s.Touches (alloc m :: answers alloc n count) t
          ∧ ∀ q ∈ alloc m :: answers alloc n count, ∃ page, t.pager.page q = some page
            ∧ page.ChunkFits s.pageSize := by
  induction turns with
  | zero =>
    intro m n value isRoot s _ _ _ _ _ hturns
    exact absurd hturns (Nat.not_lt_zero _)
  | succ turns ih =>
    intro m n value isRoot s hmn hlen hm hcap hsize hturns
    unfold writeChainFromBy
    refine Returns.get ?_
    dsimp only
    have hfits : ∀ next, next ≤ U64_MAX →
        (chainPage isRoot next (value.take (if isRoot then overflowRootCapacity s.pageSize
          else overflowPageCapacity s.pageSize))).ChunkFits s.pageSize :=
      fun next hnext => chainPage_fits hsize hnext
    have hpositive : 0 < (if isRoot then overflowRootCapacity s.pageSize
        else overflowPageCapacity s.pageSize) := by
      cases isRoot with
      | true => exact hcap
      | false =>
        unfold overflowRootCapacity OVERFLOW_ROOT_HEADER_LEN at hcap
        show 0 < overflowPageCapacity s.pageSize
        unfold overflowPageCapacity
        omega
    generalize (if isRoot then overflowRootCapacity s.pageSize
      else overflowPageCapacity s.pageSize) = cap at hfits hpositive ⊢
    by_cases hmore : cap < value.length
    · rw [if_pos hmore]
      have hn : n ≤ N := by omega
      have hne := ha.nonzero n hn
      refine (writePage_returns (alloc m) (chainPage isRoot (alloc n) (value.take cap))).bind
        fun _ w hw => ?_
      obtain ⟨hpage, htouch⟩ := hw
      rw [if_neg hne]
      have hpageSize := Session.Touches.pageSize htouch
      refine (@ih n (n + 1) (value.drop cap) false w (Nat.lt_succ_self n)
        (by rw [length_drop]; omega) hn (by rwa [hpageSize]) (by rwa [hpageSize])
        (by rw [length_drop]; omega)).weaken fun _ t ht => ?_
      obtain ⟨count, next, chunk, rest, hcount, hnext, hvalue, hchain, htouch', hrest⟩ := ht
      have hpages : alloc n :: answers alloc (n + 1) count = answers alloc n (count + 1) := by
        unfold answers
        rw [range'_succ, map_cons]
      -- the page just written is none of those that follow
      have hfresh : alloc m ∉ alloc n :: answers alloc (n + 1) count := by
        rw [hpages, mem_answers]
        rintro ⟨i, hi, hi', heq⟩
        have := ha.distinct i m (by omega) hm heq
        omega
      have hroot : t.pager.page (alloc m) = some (chainPage isRoot (alloc n) (value.take cap)) := by
        rw [htouch'.page hfresh]
        exact hpage
      refine ⟨count + 1, alloc n, value.take cap, value.drop cap, by omega, hroot,
        (take_append_drop cap value).symm, ?_, ?_, ?_⟩
      · rw [← hpages]
        exact ⟨rfl, next, chunk, rest, hnext, hvalue, hchain⟩
      · rw [← hpages]
        exact htouch.trans htouch'
      · intro q hq
        rw [← hpages] at hq
        rcases mem_cons.mp hq with rfl | hq
        · exact ⟨_, hroot, hfits _ (ha.inRange n hn)⟩
        · obtain ⟨page, hpage', hfit⟩ := hrest q hq
          rw [hpageSize] at hfit
          exact ⟨page, hpage', hfit⟩
    · -- the last page: the whole rest of the value fits
      rw [if_neg hmore]
      refine (writePage_returns (alloc m) (chainPage isRoot 0 (value.take cap))).bind
        fun _ w hw => ?_
      rw [if_pos rfl]
      refine Returns.pure ⟨0, 0, value.take cap, [], by omega, hw.1, ?_, ⟨rfl, rfl⟩, hw.2, ?_⟩
      · rw [append_nil, take_of_length_le (Nat.le_of_not_lt hmore)]
      · intro q hq
        rw [mem_singleton.mp hq]
        exact ⟨_, hw.1, hfits 0 (Nat.zero_le _)⟩

/-- **`write_chain` makes a chain of the allocator's pages that spells the value.** -/
theorem writeChainBy_returns {value : Bytes} {s : Session} (ha : HandsOut alloc value.length)
    (hcap : 0 < overflowRootCapacity s.pageSize) (hsize : s.pageSize < 256 ^ 4) :
    Returns Session.Clear (writeChainBy alloc value) s fun root t => ∃ pages,
      OverflowChain t.pager root 1 pages value
        ∧ ∀ q ∈ root :: pages, ∃ page, t.pager.page q = some page
          ∧ page.recoded s.pageSize = .ok page := by
  unfold writeChainBy
  refine (writeChainFromBy_returns ha (value.length + 1) Nat.zero_lt_one (by omega)
    (Nat.zero_le _) hcap hsize (Nat.lt_succ_self _)).bind fun _ t ht => ?_
  obtain ⟨count, next, chunk, rest, hcount, hpage, hvalue, hchain, -, hfits⟩ := ht
  have hpages : alloc 0 :: answers alloc 1 count = answers alloc 0 (count + 1) := by
    unfold answers
    rw [range'_succ, map_cons]
  refine Returns.pure ⟨answers alloc 1 count, ⟨⟨next, chunk, rest, hpage, hvalue, hchain⟩, ?_, ?_⟩,
    fun q hq => ?_⟩
  · rw [hpages]
    unfold answers
    refine List.Nodup.map_on (fun i hi j hj heq => ?_) nodup_range'
    have hi := mem_range'_1.mp hi
    have hj := mem_range'_1.mp hj
    exact ha.distinct i j (by omega) (by omega) heq
  · rw [mem_answers]
    rintro ⟨i, hi, hi', hzero⟩
    exact ha.nonzero i (by omega) hzero
  · obtain ⟨page, hpage', hfit⟩ := hfits q hq
    exact ⟨page, hpage', Page.recoded_eq hfit⟩

end Write

/-! ## §6. Windows of the tree's values -/

/-- The window of a value, from the leaf or from its chain. -/
def valueWindow (offset len : Nat) : Option LeafValue → TreeM (Option Bytes)
  | none => pure none
  | some (.inline bytes) =>
    let start := min offset bytes.length
    pure (some ((bytes.take (windowEnd start len bytes.length)).drop start))
  | some (.overflow totalLen rootPageId) => do
    let window ← readChainRange rootPageId totalLen offset len
    pure (some window)

/-- `BTree::get_range`. -/
def treeGetRange (key : Bytes) (offset len : Nat) : TreeM (Option Bytes) := do
  if (← get).rootPageId = 0 then pure none
  else do
    let path ← pathToLeafForKey key
    match path.getLast? with
    | none => throw .panic
    | some leafId => do
      let leaf ← readLeaf leafId
      valueWindow offset len (find key leaf.records)

theorem valueWindow_returns {s : Session} {v : Stored} (hheld : v.Held s.pager)
    (hnodup : v.pages.Nodup) (hzero : 0 ∉ v.pages) (hmax : v.bytes.length ≤ ISIZE_MAX)
    (offset len : Nat) :
    Returns Session.Clear (valueWindow offset len (some v.leafValue)) s fun r t =>
      r = some ((v.bytes.drop offset).take len) ∧ s.Quiet t := by
  obtain ⟨bytes, pages⟩ := v
  cases pages with
  | nil =>
    refine Returns.pure ⟨?_, Session.Quiet.refl s⟩
    rw [take_windowEnd (Nat.le_trans hmax (by decide))]
  | cons root pages =>
    have hchain : OverflowChain s.pager root 1 pages bytes :=
      ⟨hheld, hnodup, fun hmem => hzero (mem_cons_of_mem _ hmem)⟩
    refine (readChainRange_returns hchain hmax offset len).bind fun r t hr => ?_
    rw [hr.1]
    exact Returns.pure ⟨rfl, hr.2⟩

/-- **`get_range` reads the window of the record's value.** -/
theorem treeGetRange_returns {s : Session} {i : Image} (hr : Readable s i)
    (hmax : ∀ r ∈ recordsOf i.items, r.2.bytes.length ≤ ISIZE_MAX) (k : Bytes) (offset len : Nat) :
    Returns Session.Clear (treeGetRange k offset len) s fun r s' =>
      r = (i.map k).map (fun v => (v.drop offset).take len) ∧ s.Quiet s' := by
  unfold treeGetRange
  refine Returns.get ?_
  rw [← hr.root]
  cases i with
  | empty => exact Returns.pure ⟨rfl, Session.Quiet.refl s⟩
  | tree t =>
    rw [hr.root, if_neg hr.root_ne_zero]
    refine (hr.outline.path_returns k).bind ?_
    rintro _ u ⟨hq, c, id, left, right, old, rfl, hcut, rfl⟩
    rw [getLast?_concat]
    have hcell : (id, .leaf (around left k old right))
        ∈ (c.plug (.leaf id (around left k old right))).cells :=
      (c.plug_cells _).mem_iff.mpr (mem_append_left _ (mem_singleton_self _))
    have hlook : u.look id = some (.inl (leafRecords (around left k old right))) :=
      (hr.quiet hq).rep _ hcell
    refine (readLeaf_returns hlook).bind fun leaf w hw => ?_
    obtain ⟨hq', -, hrecords⟩ := hw
    have hmap : Image.map (.tree (c.plug (.leaf id (around left k old right)))) k
        = old.map Stored.bytes := hcut.contents_self id old
    rw [hrecords, leafRecords_around, find_around (leafRecords_sides hcut.around), hmap]
    cases old with
    | none => exact Returns.pure ⟨rfl, hq.trans hq'⟩
    | some v =>
      have hmem : (k, v) ∈ recordsOf (c.plug (.leaf id (around left k (some v) right))).items := by
        rw [Cut.records_eq]
        exact mem_append_left _ mem_concat_self
      obtain ⟨hheld, hnodup, hzero⟩ := ((hr.quiet hq).quiet hq').values _ hmem
      refine (valueWindow_returns hheld hnodup hzero (hmax _ hmem) offset len).weaken
        fun r x hx => ?_
      exact ⟨hx.1, (hq.trans hq').trans hx.2⟩

/-! ## §7. The values round-trip -/

/-- The turns the loops of a chain from `root` are given. -/
def chainTurns (s : Session) : Nat := s.pager.pageCount + 1

/-- **Overflow values round-trip.**  What `write_chain` writes, with any allocator of
    distinct pages and with the session's own, is read back.  A window read agrees with
    the full read.  A walk lists the pages of the chain.  And over any graph of overflow
    pages every loop ends, in a result or a corruption error. -/
theorem overflow_values_round_trip :
    (∀ (alloc : Nat → PageId) (value : Bytes) (s : Session), HandsOut alloc value.length →
      0 < overflowRootCapacity s.pageSize → s.pageSize < 256 ^ 4 → value.length ≤ ISIZE_MAX →
      Returns Session.Clear (writeChainBy alloc value) s fun root t =>
        (∃ pages, OverflowChain t.pager root 1 pages value
          ∧ ∀ q ∈ root :: pages, ∃ page, t.pager.page q = some page
            ∧ page.recoded s.pageSize = .ok page)
        ∧ Returns Session.Clear (readChainChecked root value.length) t fun v _ => v = value)
    ∧ (∀ (source owned : List PageId) (value : Bytes) (s : Session), Ledger source s owned →
      0 < overflowRootCapacity s.pageSize → value.length ≤ ISIZE_MAX →
      Returns Session.Clear (writeChain value) s fun root t =>
        (∃ pages, OverflowChain t.pager root 1 pages value)
        ∧ Returns Session.Clear (readChainChecked root value.length) t fun v _ => v = value)
    ∧ (∀ (root : PageId) (totalLen : Nat) (v : Bytes) (s s' : Session),
      readChainChecked root totalLen s = .ok v s' → ∀ offset len,
      Returns Session.Clear (readChainRange root totalLen offset len) s fun r _ =>
        r = (v.drop offset).take len)
    ∧ (∀ (s : Session) (i : Image), Readable s i →
      (∀ r ∈ recordsOf i.items, r.2.bytes.length ≤ ISIZE_MAX) → ∀ key offset len,
      Returns Session.Clear (treeGetRange key offset len) s fun r _ =>
        r = (i.map key).map fun v => (v.drop offset).take len)
    ∧ (∀ (s : Session) (root : PageId) (refcount : Nat) (pages : List PageId) (bytes : Bytes),
      OverflowChain s.pager root refcount pages bytes →
      (root :: pages).Nodup
      ∧ Returns Session.Clear (collectChain root) s (fun r _ => r = root :: pages)
      ∧ (refcount = 1 → ∀ newPage, Returns Session.Clear (release root newPage) s fun r _ =>
        r = .freed (root :: pages)))
    ∧ (∀ (s : Session) (root next : PageId) (refcount : Nat) (data : Bytes),
      s.pager.page root = some (.overflowRoot refcount next data) →
      ∀ more totalLen start stop,
        walkChain (chainTurns s + more) [root] next s = walkChain (chainTurns s) [root] next s
        ∧ readChainFrom totalLen (chainTurns s + more) [root] next data s
          = readChainFrom totalLen (chainTurns s) [root] next data s
        ∧ readRangeFrom start stop (chainTurns s + more) [root] 0 data next [] s
          = readRangeFrom start stop (chainTurns s) [root] 0 data next [] s)
    ∧ ∀ (s : Session) (root : PageId), s.Clear → OverflowGraph s.pager →
      (∃ refcount next data, s.pager.page root = some (.overflowRoot refcount next data)) →
      ∀ totalLen offset len newPage, FailsOnly ChainCorrupt (readChainChecked root totalLen) s
        ∧ FailsOnly ChainCorrupt (readChainRange root totalLen offset len) s
        ∧ FailsOnly ChainCorrupt (collectChain root) s
        ∧ FailsOnly ChainCorrupt (release root newPage) s := by
  have hread : ∀ {t : Session} {root : PageId} {pages : List PageId} {value : Bytes},
      OverflowChain t.pager root 1 pages value → value.length ≤ ISIZE_MAX →
      Returns Session.Clear (readChainChecked root value.length) t fun v _ => v = value := by
    intro t root pages value hchain hmax
    unfold readChainChecked
    rw [if_neg (by omega)]
    exact (readChain_returns hchain.held hchain.distinct hchain.nonzero).weaken fun v _ hv => hv.1
  refine ⟨?_, ?_, ?_, ?_, ?_, ?_, ?_⟩
  · intro alloc value s ha hcap hsize hmax
    refine (writeChainBy_returns ha hcap hsize).weaken fun root t ht => ?_
    obtain ⟨pages, hchain, hrecoded⟩ := ht
    exact ⟨⟨pages, hchain, hrecoded⟩, hread hchain hmax⟩
  · intro source owned value s hl hcap hmax
    refine ⟨fun root t hrun => ?_, writeChain_ends hl hcap⟩
    obtain ⟨pages, hheld, hl', -⟩ := writeChain_spec hl hrun
    have hchain : OverflowChain t.pager root 1 pages value :=
      ⟨hheld, hl'.nodup.of_append_left, fun hzero =>
        hl'.zero_notMem (mem_append_left _ (mem_cons_of_mem _ hzero))⟩
    exact ⟨⟨pages, hchain⟩, hread hchain hmax⟩
  · intro root totalLen v s s' hrun offset len
    unfold readChainChecked at hrun
    split_ifs at hrun with hbig
    · cases hrun
    · obtain ⟨rfl, refcount, pages, hchain⟩ := readChain_sound hrun
      exact (readChainRange_returns hchain (Nat.le_of_not_lt hbig) offset len).weaken
        fun r _ hr => hr.1
  · intro s i hr hmax key offset len
    exact (treeGetRange_returns hr hmax key offset len).weaken fun r _ hr => hr.1
  · intro s root refcount pages bytes hchain
    refine ⟨hchain.distinct, (collectChain_returns hchain).weaken fun r _ hr => hr.1, ?_⟩
    intro hlast newPage
    subst hlast
    exact (release_returns hchain.held hchain.distinct hchain.nonzero newPage).weaken
      fun r _ hr => hr.1
  · intro s root next refcount data hpage more totalLen start stop
    have hvisited : Visited s.pager [root] := by
      refine ⟨nodup_singleton root, fun q hq => ?_⟩
      rw [mem_singleton.mp hq]
      exact Option.isSome_iff_exists.mpr ⟨_, hpage⟩
    have hturns : s.pager.pageCount < chainTurns s + [root].length := by
      unfold chainTurns
      rw [length_singleton]
      omega
    exact ⟨walkChain_turns more _ hvisited hturns, readChainFrom_turns totalLen more _ hvisited hturns,
      readRangeFrom_turns start stop more _ hvisited hturns⟩
  · intro s root hs hg hroot totalLen offset len newPage
    exact hg.fails hs hroot totalLen offset len newPage

/-- Ten bytes over pages that hold four and eight. -/
theorem overflow_values_round_trip_two_pages :
    ∃ (s t u : Session) (root : PageId), writeChainBy (· + 4) (List.replicate 10 7) s = .ok root t
        ∧ readChainChecked root 10 t = .ok (List.replicate 10 7) u := by
  let s : Session :=
    { BTree.open 60 0 4 none with pager := ⟨[], [], [], []⟩, cache := [], consumed := [] }
  have hout : HandsOut (· + 4) (List.replicate 10 (7 : UInt8)).length := by
    refine ⟨fun i j _ _ heq => Nat.add_right_cancel heq, fun i _ => Nat.succ_ne_zero _, ?_⟩
    intro i hi
    rw [length_replicate] at hi
    exact Nat.le_trans (Nat.add_le_add_right hi 4) (by decide)
  have hwrite := overflow_values_round_trip.1 (· + 4) (List.replicate 10 7) s hout (by decide)
    (by decide) (by decide)
  obtain ⟨root, t, hrun, ht⟩ := hwrite.total rfl
  have hread := (hwrite.sound root t hrun).2
  obtain ⟨v, u, hrun', -⟩ := hread.total ht
  rw [hread.sound v u hrun'] at hrun'
  exact ⟨s, t, u, root, hrun, hrun'⟩

end Pagedb
