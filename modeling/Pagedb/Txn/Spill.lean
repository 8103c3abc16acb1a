/-
  Pagedb.Txn.Spill — the nonces of the spill scratch file (`txn/write/spill.rs`).

  A write transaction may spill bytes to a scratch file, each frame sealed
  under the transaction's spill key and a nonce made of its sequence number and
  the number of frames recorded so far.  A frame is recorded only after its
  write and its sync; a frame whose append failed in between stays in the file.

  `frames` is what reached the scratch files, with the plaintext behind it; it
  is not part of the handle.

  Main result: `spill_nonces_unique`.
-/
import Pagedb.Basic
import Pagedb.Lib.Bytes
import Pagedb.Lib.Run

namespace Pagedb

open List

/-! ## §1. State -/

/-- `SPILL_TAG_LEN`. -/
def SPILL_TAG_LEN : Nat := 16

/-- `u32::MAX`. -/
def U32_MAX : Nat := 2 ^ 32 - 1

/-- `SpillSegmentMeta`. -/
structure SpillSegmentMeta where
  offset : Nat
  plaintextLen : Nat
  ciphertextLen : Nat
  nonceBytes : Bytes
  deriving DecidableEq, Repr

/-- `derive_spill_key`, for one open handle: HKDF gives different sequence
    numbers different keys. -/
structure SpillKdf (M K : Type) where
  derive : M → Nat → K
  derive_inj : ∀ m m' a b, derive m a = derive m' b → a = b

/-- The spill fields of a `WriteTxn`. -/
structure SpillTxn (K : Type) where
  txnSeq : Nat
  cipher : Option K
  hasPath : Bool
  bytesUsed : Nat
  segments : List SpillSegmentMeta

/-- A frame of which some byte reached a scratch file. -/
structure SpillFrame (K : Type) where
  key : K
  nonce : Bytes
  txnSeq : Nat
  offset : Nat
  plaintext : Bytes

/-- A handle, as far as it spills. -/
structure SpillDb (M K : Type) where
  scratchBytes : Nat
  masterKey : M
  txnSeq : Nat
  txn : Option (SpillTxn K)
  frames : List (SpillFrame K)

variable {M K : Type}

/-- An open handle that has not spilled yet. -/
def SpillDb.create (scratchBytes : Nat) (masterKey : M) : SpillDb M K where
  scratchBytes
  masterKey
  txnSeq := 0
  txn := none
  frames := []

/-! ## §2. Append -/

/-- Where an append stops, if it passes its own checks.  A dropped future stops
    it as an error does; bytes of a write that was stopped may have landed. -/
inductive AppendFate where
  | keyFailed
  | pathFailed
  | openFailed
  | writeFailed (landed : Bool)
  | syncFailed
  | completes
  deriving DecidableEq, Repr

/-- `next_spill_nonce`. -/
def spillNonce (txnSeq segmentIndex : Nat) : Bytes :=
  Lib.leBytes 6 txnSeq ++ Lib.leBytes 6 segmentIndex

/-- The frame an append under `key` writes. -/
def SpillTxn.frame (t : SpillTxn K) (key : K) (bytes : Bytes) : SpillFrame K where
  key
  nonce := spillNonce t.txnSeq t.segments.length
  txnSeq := t.txnSeq
  offset := t.bytesUsed
  plaintext := bytes

/-- The record of a frame that is written and synced. -/
def SpillTxn.record (t : SpillTxn K) (bytes : Bytes) (newTotal : Nat) : SpillTxn K :=
  { t with
    segments := t.segments ++ [{
      offset := t.bytesUsed
      plaintextLen := bytes.length
      ciphertextLen := bytes.length
      nonceBytes := spillNonce t.txnSeq t.segments.length }]
    bytesUsed := newTotal }

/-- `SpillScope::append` from the file write on: the transaction after it, and
    the frame if some of it landed. -/
def SpillTxn.writeFrame (t : SpillTxn K) (key : K) (bytes : Bytes) (newTotal : Nat) :
    AppendFate → SpillTxn K × Option (SpillFrame K)
  | .writeFailed landed => (t, if landed then some (t.frame key bytes) else none)
  | .syncFailed => (t, some (t.frame key bytes))
  | .completes =>
    -- the length check comes after the write
    if bytes.length > U32_MAX then (t, some (t.frame key bytes))
    else (t.record bytes newTotal, some (t.frame key bytes))
  | _ => (t, none)

/-- `SpillScope::append`. -/
def SpillTxn.append (kdf : SpillKdf M K) (masterKey : M) (scratchBytes : Nat) (t : SpillTxn K)
    (bytes : Bytes) (fate : AppendFate) : SpillTxn K × Option (SpillFrame K) :=
  if t.cipher.isNone ∧ fate = .keyFailed then (t, none)
  else
    let key := t.cipher.getD (kdf.derive masterKey t.txnSeq)
    let t := { t with cipher := some key }
    let newTotal := satAdd t.bytesUsed (bytes.length + SPILL_TAG_LEN)
    if newTotal > scratchBytes then (t, none)
    else if ¬ t.hasPath ∧ fate = .pathFailed then (t, none)
    else
      let t := { t with hasPath := true }
      if fate = .openFailed then (t, none) else t.writeFrame key bytes newTotal fate

/-- One step of a handle. -/
inductive SpillEvent (M : Type) where
  | begin
  | append (bytes : Bytes) (fate : AppendFate)
  | finish
  | rekey (masterKey : M)

/-- `begin_write` takes the next sequence number; commit, abort and drop end the
    transaction. -/
def SpillDb.step (kdf : SpillKdf M K) (db : SpillDb M K) : SpillEvent M → SpillDb M K
  | .begin =>
    match db.txn with
    | some _ => db
    | none =>
      let seq := (db.txnSeq + 1) % 2 ^ 64
      { db with
        txnSeq := seq
        txn := some { txnSeq := seq, cipher := none, hasPath := false, bytesUsed := 0
                      segments := [] } }
  | .append bytes fate =>
    match db.txn with
    | none => db
    | some t =>
      let (t, frame) := t.append kdf db.masterKey db.scratchBytes bytes fate
      { db with txn := some t, frames := db.frames ++ frame.toList }
  | .finish => { db with txn := none }
  | .rekey masterKey => { db with masterKey }

/-! ## §3. What an append can do -/

/-- The outcome of an append: at most one more frame recorded, at most one frame
    landed, and that one at the index the append started from. -/
structure SpillTxn.Appended (kdf : SpillKdf M K) (t : SpillTxn K) (bytes : Bytes)
    (r : SpillTxn K × Option (SpillFrame K)) : Prop where
  seq : r.1.txnSeq = t.txnSeq
  cipher : ∀ k ∈ r.1.cipher, ∃ m, k = kdf.derive m t.txnSeq
  grows : r.2.isSome = true ∧ r.1.segments.length = t.segments.length + 1
    ∨ r.1.segments.length = t.segments.length
  frame : ∀ f ∈ r.2, ∃ m, f = t.frame (kdf.derive m t.txnSeq) bytes

theorem SpillTxn.append_spec (kdf : SpillKdf M K) (mk : M) (limit : Nat) (t : SpillTxn K)
    (bytes : Bytes) (fate : AppendFate) (hkey : ∀ k ∈ t.cipher, ∃ m, k = kdf.derive m t.txnSeq) :
    t.Appended kdf bytes (t.append kdf mk limit bytes fate) := by
  -- the key is the cached one or a new derivation, of this transaction either way
  obtain ⟨m, hm⟩ : ∃ m, t.cipher.getD (kdf.derive mk t.txnSeq) = kdf.derive m t.txnSeq := by
    cases hc : t.cipher with
    | none => exact ⟨mk, rfl⟩
    | some k => exact hkey k (by rw [hc]; rfl)
  have hcached : ∀ k ∈ some (t.cipher.getD (kdf.derive mk t.txnSeq)),
      ∃ m, k = kdf.derive m t.txnSeq := by
    intro k hk
    rw [← Option.some.inj hk]
    exact ⟨m, hm⟩
  unfold append
  dsimp only
  rw [hm] at hcached ⊢
  split
  · exact ⟨rfl, hkey, Or.inr rfl, by simp⟩
  split
  · exact ⟨rfl, hcached, Or.inr rfl, by simp⟩
  split
  · exact ⟨rfl, hcached, Or.inr rfl, by simp⟩
  split
  · exact ⟨rfl, hcached, Or.inr rfl, by simp⟩
  · cases fate with
    | writeFailed landed =>
      refine ⟨rfl, hcached, Or.inr rfl, fun f hf => ⟨m, ?_⟩⟩
      cases landed with
      | false => simp [writeFrame] at hf
      | true => exact (Option.some.inj hf).symm
    | syncFailed =>
      exact ⟨rfl, hcached, Or.inr rfl, fun f hf => ⟨m, (Option.some.inj hf).symm⟩⟩
    | completes =>
      unfold writeFrame
      dsimp only
      split
      · exact ⟨rfl, hcached, Or.inr rfl, fun f hf => ⟨m, (Option.some.inj hf).symm⟩⟩
      · exact ⟨rfl, hcached, Or.inl ⟨rfl, by simp [record]⟩, fun f hf => ⟨m, (Option.some.inj hf).symm⟩⟩
    | _ => exact ⟨rfl, hcached, Or.inr rfl, by simp [writeFrame]⟩

/-- What is left where the next append writes, behind an append that ended with `r`: the
    bytes of a frame that landed and was not recorded. -/
def SpillTxn.leftBy (t : SpillTxn K) (bytes : Bytes) (left : Option Bytes)
    (r : SpillTxn K × Option (SpillFrame K)) : Option Bytes :=
  if r.2.isNone then left
  else if r.1.segments.length = t.segments.length then some bytes
  else none

def SpillDb.leftAfter (kdf : SpillKdf M K) (db : SpillDb M K) (left : Option Bytes) :
    SpillEvent M → Option Bytes
  | .begin => if db.txn.isSome then left else none
  | .append bytes fate => db.txn.elim left fun t =>
      t.leftBy bytes left (t.append kdf db.masterKey db.scratchBytes bytes fate)
  | _ => left

/-- What the handle asks of its callers.  An append that writes has the bytes that an
    earlier one left where it writes; a transaction records fewer than `2 ^ 48` frames,
    a handle begins fewer than `2 ^ 64` transactions. -/
def SpillDb.Careful (kdf : SpillKdf M K) (db : SpillDb M K) (left : Option Bytes) :
    SpillEvent M → Prop
  | .append bytes fate => ∀ t ∈ db.txn,
      (t.append kdf db.masterKey db.scratchBytes bytes fate).2.isSome = true →
        t.segments.length < 2 ^ 48 ∧ ∀ b ∈ left, b = bytes
  | .begin => db.txn.isNone = true → db.txnSeq + 1 < 2 ^ 64
  | _ => True

/-- Every event is one of a careful caller. -/
def SpillDb.CarefulRun (kdf : SpillKdf M K) :
    SpillDb M K → Option Bytes → List (SpillEvent M) → Prop
  | _, _, [] => True
  | db, left, e :: es =>
    db.Careful kdf left e ∧ CarefulRun kdf (db.step kdf e) (db.leftAfter kdf left e) es

/-! ## §4. The invariant -/

/-- A frame's key and nonce come from its transaction and an index.  In the open
    transaction that index is recorded, or the next one, and then the frame is what
    was left. -/
def SpillFrame.Placed (kdf : SpillKdf M K) (f : SpillFrame K) (txn : Option (SpillTxn K))
    (left : Option Bytes) : Prop :=
  ∃ m i, f.key = kdf.derive m f.txnSeq ∧ i < 2 ^ 48 ∧ f.nonce = spillNonce f.txnSeq i
    ∧ ∀ t ∈ txn, f.txnSeq = t.txnSeq →
      i ≤ t.segments.length ∧ (i = t.segments.length → left = some f.plaintext)

/-- What holds of every handle used with care. -/
structure SpillInv (kdf : SpillKdf M K) (db : SpillDb M K) (left : Option Bytes) : Prop where
  placed : ∀ f ∈ db.frames, f.Placed kdf db.txn left
  seq_le : ∀ f ∈ db.frames, f.txnSeq ≤ db.txnSeq
  txn_seq : ∀ t ∈ db.txn, t.txnSeq = db.txnSeq
  cipher : ∀ t ∈ db.txn, ∀ k ∈ t.cipher, ∃ m, k = kdf.derive m t.txnSeq
  unique : ∀ f ∈ db.frames, ∀ g ∈ db.frames, f.key = g.key → f.nonce = g.nonce →
    f.plaintext = g.plaintext

theorem spillInv_create (kdf : SpillKdf M K) (limit : Nat) (mk : M) :
    SpillInv kdf (SpillDb.create limit mk : SpillDb M K) none := by
  constructor <;> simp [SpillDb.create]

theorem spillNonce_index {seq i j : Nat} (hi : i < 2 ^ 48) (hj : j < 2 ^ 48)
    (h : spillNonce seq i = spillNonce seq j) : i = j := by
  have hsame : Lib.leBytes 6 i = Lib.leBytes 6 j := append_cancel_left h
  exact Lib.leBytes_inj (by omega) (by omega) hsame

section Step

variable {kdf : SpillKdf M K} {db : SpillDb M K} {t : SpillTxn K} {left : Option Bytes}

/-- A frame under the key and the nonce of the next append has its plaintext. -/
theorem SpillInv.same_plaintext {m : M} {bytes : Bytes} {f : SpillFrame K}
    (hs : SpillInv kdf db left) (ht : t ∈ db.txn) (hlen : t.segments.length < 2 ^ 48)
    (hleft : ∀ b ∈ left, b = bytes) (hf : f ∈ db.frames)
    (hk : f.key = (t.frame (kdf.derive m t.txnSeq) bytes).key)
    (hn : f.nonce = (t.frame (kdf.derive m t.txnSeq) bytes).nonce) : f.plaintext = bytes := by
  obtain ⟨m', i, hfk, hi, hfn, hidx⟩ := hs.placed f hf
  -- equal keys mean the same transaction, equal nonces then the same index
  have hseq : f.txnSeq = t.txnSeq := kdf.derive_inj m' m _ _ (hfk.symm.trans hk)
  have hindex : i = t.segments.length := by
    rw [hfn, hseq] at hn
    exact spillNonce_index hi hlen hn
  exact hleft f.plaintext ((hidx t ht hseq).2 hindex)

theorem SpillFrame.Placed.append {bytes : Bytes} {r : SpillTxn K × Option (SpillFrame K)}
    {f : SpillFrame K} (hf : f.Placed kdf (some t) left) (hr : t.Appended kdf bytes r)
    (hleft : r.2.isSome = true → ∀ b ∈ left, b = bytes) :
    f.Placed kdf (some r.1) (t.leftBy bytes left r) := by
  obtain ⟨m, i, hk, hi, hn, hidx⟩ := hf
  refine ⟨m, i, hk, hi, hn, fun u hu heq => ?_⟩
  rw [← Option.some.inj hu] at heq ⊢
  obtain ⟨hle, hlast⟩ := hidx t rfl (heq.trans hr.seq)
  rcases hr.grows with ⟨hsome, hgrow⟩ | hsame
  · exact ⟨by omega, by omega⟩
  · refine ⟨hsame ▸ hle, fun hindex => ?_⟩
    have hleft' := hlast (hindex.trans hsame)
    unfold SpillTxn.leftBy
    rw [if_pos hsame]
    split_ifs with hnone
    · exact hleft'
    · rw [hleft (Option.isSome_iff_ne_none.mpr fun h => hnone (by rw [h]; rfl)) _ hleft']

/-- **Every careful step keeps the invariant.** -/
theorem SpillInv.step {e : SpillEvent M} (hs : SpillInv kdf db left) (hcare : db.Careful kdf left e) :
    SpillInv kdf (db.step kdf e) (db.leftAfter kdf left e) := by
  cases e with
  | rekey mk => exact ⟨hs.placed, hs.seq_le, hs.txn_seq, hs.cipher, hs.unique⟩
  | finish =>
    refine ⟨fun f hf => ?_, hs.seq_le, by simp [SpillDb.step], by simp [SpillDb.step], hs.unique⟩
    obtain ⟨m, i, hk, hi, hn, -⟩ := hs.placed f hf
    exact ⟨m, i, hk, hi, hn, by simp [SpillDb.step]⟩
  | begin =>
    unfold SpillDb.step SpillDb.leftAfter
    unfold SpillDb.Careful at hcare
    cases ht : db.txn with
    | some t => exact hs
    | none =>
      rw [ht] at hcare
      have hlt : db.txnSeq + 1 < 2 ^ 64 := hcare rfl
      dsimp only
      rw [Nat.mod_eq_of_lt hlt]
      refine ⟨fun f hf => ?_, fun f hf => Nat.le_succ_of_le (hs.seq_le f hf), ?_, ?_, hs.unique⟩
      · obtain ⟨m, i, hk, hi, hn, -⟩ := hs.placed f hf
        refine ⟨m, i, hk, hi, hn, fun t hmem heq => ?_⟩
        -- no frame of an earlier transaction has the new sequence number
        rw [← Option.some.inj hmem] at heq
        have := hs.seq_le f hf
        dsimp only at heq
        omega
      · intro t hmem
        rw [← Option.some.inj hmem]
      · intro t hmem k hk
        rw [← Option.some.inj hmem] at hk
        simp at hk
  | append bytes fate =>
    unfold SpillDb.step SpillDb.leftAfter
    cases ht : db.txn with
    | none => exact hs
    | some t =>
      have hmem : t ∈ db.txn := by rw [ht]; rfl
      have hr := t.append_spec kdf db.masterKey db.scratchBytes bytes fate (hs.cipher t hmem)
      have hwrites := hcare t hmem
      dsimp only [Option.elim_some]
      generalize t.append kdf db.masterKey db.scratchBytes bytes fate = r at hr hwrites
      -- a frame that landed
      have hnew : ∀ f ∈ r.2.toList, (∃ m, f = t.frame (kdf.derive m t.txnSeq) bytes)
          ∧ t.segments.length < 2 ^ 48 ∧ ∀ b ∈ left, b = bytes := by
        intro f hf
        have hf := Option.mem_toList.mp hf
        exact ⟨hr.frame f hf, hwrites (by rw [Option.mem_def.mp hf]; rfl)⟩
      refine ⟨fun f hf => ?_, fun f hf => ?_, ?_, ?_, fun f hf g hg hk hn => ?_⟩
      · rcases mem_append.mp hf with hf | hf
        · exact (ht ▸ hs.placed f hf).append hr fun hsome => (hwrites hsome).2
        · obtain ⟨⟨m, hframe⟩, hlen, -⟩ := hnew f hf
          have hplaced : f.Placed kdf (some t) (some bytes) := by
            rw [hframe]
            refine ⟨m, t.segments.length, rfl, hlen, rfl, fun u hu _ => ?_⟩
            rw [← Option.some.inj hu]
            exact ⟨Nat.le_refl _, fun _ => rfl⟩
          have hplaced := hplaced.append hr fun _ b hb => (Option.some.inj hb).symm
          unfold SpillTxn.leftBy at hplaced ⊢
          rw [Option.mem_def.mp (Option.mem_toList.mp hf)] at hplaced ⊢
          exact hplaced
      · rcases mem_append.mp hf with hf | hf
        · exact hs.seq_le f hf
        · obtain ⟨⟨m, rfl⟩, -⟩ := hnew f hf
          exact (hs.txn_seq t hmem).le
      · intro u hu
        rw [← Option.some.inj hu, hr.seq]
        exact hs.txn_seq t hmem
      · intro u hu k hk
        rw [← Option.some.inj hu] at hk ⊢
        rw [hr.seq]
        exact hr.cipher k hk
      · -- old against old, old against new, new against new
        rcases mem_append.mp hf with hf | hf <;> rcases mem_append.mp hg with hg | hg
        · exact hs.unique f hf g hg hk hn
        · obtain ⟨⟨m, rfl⟩, hlen, hleft⟩ := hnew g hg
          exact hs.same_plaintext hmem hlen hleft hf hk hn
        · obtain ⟨⟨m, rfl⟩, hlen, hleft⟩ := hnew f hf
          exact (hs.same_plaintext hmem hlen hleft hg hk.symm hn.symm).symm
        · rw [Option.mem_unique (Option.mem_toList.mp hf) (Option.mem_toList.mp hg)]

/-- What holds behind every careful run. -/
theorem SpillInv.run (es : List (SpillEvent M)) :
    ∀ {db : SpillDb M K} {left : Option Bytes}, SpillInv kdf db left → db.CarefulRun kdf left es →
      ∃ left', SpillInv kdf (Lib.run (SpillDb.step kdf) db es) left' := by
  induction es with
  | nil => exact fun hs _ => ⟨_, hs⟩
  | cons e es ih => exact fun hs hcare => ih (hs.step hcare.1) hcare.2

end Step

/-! ## §5. Runs -/

/-- **No spill nonce is used for two plaintexts.**  In every run whose appends
    repeat what was left where they write, frames in the scratch files under one key
    and one nonce have one plaintext. -/
theorem spill_nonces_unique (kdf : SpillKdf M K) (scratchBytes : Nat) (masterKey : M)
    (es : List (SpillEvent M))
    (hcare : (SpillDb.create scratchBytes masterKey).CarefulRun kdf none es) :
    ∀ f ∈ (Lib.run (SpillDb.step kdf) (SpillDb.create scratchBytes masterKey) es).frames,
      ∀ g ∈ (Lib.run (SpillDb.step kdf) (SpillDb.create scratchBytes masterKey) es).frames,
        f.key = g.key → f.nonce = g.nonce → f.plaintext = g.plaintext := by
  obtain ⟨left, hinv⟩ := SpillInv.run es (spillInv_create kdf scratchBytes masterKey) hcare
  exact hinv.unique

/-- The keys of a KDF that only pairs its inputs. -/
def pairKdf : SpillKdf Nat (Nat × Nat) where
  derive := fun m seq => (m, seq)
  derive_inj := fun _ _ _ _ h => (Prod.mk.inj h).2

/-- A failed sync, its retry with the same bytes, and one more append. -/
theorem spill_nonces_unique_retried :
    let es : List (SpillEvent Nat) :=
      [.begin, .append [1] .syncFailed, .append [1] .completes, .append [2] .completes]
    let db := Lib.run (SpillDb.step pairKdf) (SpillDb.create 1000 7) es
    db.frames.map (fun f => f.plaintext) = [[1], [1], [2]]
      ∧ ∀ f ∈ db.frames, ∀ g ∈ db.frames, f.key = g.key → f.nonce = g.nonce →
        f.plaintext = g.plaintext := by
  intro es db
  refine ⟨by decide, spill_nonces_unique pairKdf 1000 7 es ?_⟩
  refine ⟨fun _ => show 0 + 1 < 2 ^ 64 by decide, fun t ht _ => ?_, fun t ht _ => ?_,
    fun t ht _ => ?_, trivial⟩
  all_goals
    rw [← Option.some.inj ht]
    exact ⟨by decide, by decide⟩

/-- A failed sync and a retry with other bytes: two plaintexts under one key and
    one nonce. -/
theorem spill_retry_reuses_nonce :
    let db := Lib.run (SpillDb.step pairKdf) (SpillDb.create 1000 7)
      [.begin, .append [1] .syncFailed, .append [2] .completes]
    ∃ f ∈ db.frames, ∃ g ∈ db.frames,
      f.key = g.key ∧ f.nonce = g.nonce ∧ f.plaintext ≠ g.plaintext := by
  intro db
  refine ⟨⟨(7, 1), spillNonce 1 0, 1, 0, [1]⟩, ?_, ⟨(7, 1), spillNonce 1 0, 1, 0, [2]⟩, ?_,
    rfl, rfl, by decide⟩
  · exact mem_cons_self
  · exact mem_cons_of_mem _ mem_cons_self

end Pagedb
