/-
  Pagedb.Lib.TreeLeaves — the leaves of a search tree from left to right.

  A walk to one side of a tree meets the leaves on that side one by one.  From a
  subtree it goes up to the first branch with a child further on, one child
  over, and down that child's near edge.

    * `Ctx.ahead`      — the leaves a walk from the hole has still to meet;
    * `Ctx.plug_leaves` — all leaves, in terms of a subtree and its context;
    * `Frame.shift`    — a hole moved one child over;
    * `Node.leavesFrom` — the leaves from the one where a key belongs on.
-/
import Pagedb.Lib.TreeContext

namespace Pagedb.Lib

open List

variable {ι K V : Type} {h H : Nat}

/-! ## §1. Leaves -/

/-- A leaf of a tree: the branches above it from the root down, its address and
    its records. -/
structure LeafAt (ι K V : Type) where
  up : List ι
  id : ι
  records : List (K × V)

/-- The way down to a leaf, the leaf's own address last. -/
def LeafAt.path (l : LeafAt ι K V) : List ι := l.up ++ [l.id]

/-- The leaf seen from further up. -/
def LeafAt.under (above : List ι) (l : LeafAt ι K V) : LeafAt ι K V := { l with up := above ++ l.up }

@[simp] theorem LeafAt.under_records (above : List ι) (l : LeafAt ι K V) :
    (l.under above).records = l.records := rfl

theorem LeafAt.under_under (a b : List ι) :
    (LeafAt.under a ∘ LeafAt.under b : LeafAt ι K V → LeafAt ι K V) = LeafAt.under (a ++ b) := by
  funext l
  show ({ l with up := a ++ (b ++ l.up) } : LeafAt ι K V) = { l with up := (a ++ b) ++ l.up }
  rw [append_assoc]

theorem LeafAt.under_nil (ls : List (LeafAt ι K V)) : ls.map (LeafAt.under []) = ls :=
  map_id ls

/-- The leaf with the records of the keys that `q` names only. -/
def LeafAt.only (q : K → Bool) (l : LeafAt ι K V) : LeafAt ι K V :=
  { l with records := l.records.filter fun r => q r.1 }

namespace Node

/-- The leaves from left to right. -/
def leaves : {h : Nat} → Node ι K V h → List (LeafAt ι K V)
  | 0, .leaf id records => [⟨[], id, records⟩]
  | _ + 1, .branch id first rest =>
    (first.leaves ++ rest.flatMap fun e => e.2.leaves).map (LeafAt.under [id])

theorem leaves_eq_kids (n : Node ι K V (h + 1)) :
    n.leaves = (n.kids.flatMap leaves).map (LeafAt.under [n.id]) := by
  obtain ⟨id, first, rest, rfl⟩ := n.exists_branch
  show (first.leaves ++ rest.flatMap fun e => e.2.leaves).map (LeafAt.under [id])
    = ((first :: rest.map Prod.snd).flatMap leaves).map (LeafAt.under [id])
  rw [flatMap_cons, flatMap_map]

theorem recordsOf_rest (rest : List (K × Node ι K V h)) :
    recordsOf (rest.flatMap fun e => Item.sep e.1 :: e.2.items)
      = (rest.map Prod.snd).flatMap fun m => recordsOf m.items := by
  induction rest with
  | nil => rfl
  | cons e rest ih =>
    rw [flatMap_cons, recordsOf_append, ih]
    rfl

/-- The records of a read-out are the records of the leaves. -/
theorem recordsOf_items : ∀ {h : Nat} (n : Node ι K V h),
    recordsOf n.items = n.leaves.flatMap LeafAt.records := by
  intro h
  induction h with
  | zero =>
    intro n
    obtain ⟨id, records, rfl⟩ := n.exists_leaf
    show recordsOf (records.map fun r => Item.entry r.1 r.2) = records ++ []
    rw [append_nil]
    exact recordsOf_records records
  | succ h ih =>
    intro n
    obtain ⟨id, first, rest, rfl⟩ := n.exists_branch
    show recordsOf (first.items ++ rest.flatMap fun e => Item.sep e.1 :: e.2.items)
      = ((first.leaves ++ rest.flatMap fun e => e.2.leaves).map (LeafAt.under [id])).flatMap
        LeafAt.records
    rw [recordsOf_append, recordsOf_rest, ih first, flatMap_map, flatMap_map]
    simp only [ih, LeafAt.under_records, flatMap_append, flatMap_assoc]

/-- A leaf's records lie at its address. -/
theorem leaf_cell_mem : ∀ {h : Nat} {n : Node ι K V h} {l : LeafAt ι K V}, l ∈ n.leaves →
    (l.id, Cell.leaf l.records) ∈ n.cells := by
  intro h
  induction h with
  | zero =>
    intro n l hl
    obtain ⟨id, records, rfl⟩ := n.exists_leaf
    rw [mem_singleton.mp hl]
    exact mem_singleton_self _
  | succ h ih =>
    intro n l hl
    rw [leaves_eq_kids] at hl
    obtain ⟨l', hl', rfl⟩ := mem_map.mp hl
    obtain ⟨k, hk, hlk⟩ := mem_flatMap.mp hl'
    have hcell : (l'.id, Cell.leaf l'.records) ∈ k.cells := ih hlk
    rw [cells_eq_kids]
    exact mem_cons_of_mem _ (mem_flatMap.mpr ⟨k, hk, hcell⟩)

/-- The records at an address are in the read-out. -/
theorem mem_recordsOf_of_cell : ∀ {h : Nat} {n : Node ι K V h} {id : ι} {records : List (K × V)},
    (id, Cell.leaf records) ∈ n.cells → records ⊆ recordsOf n.items := by
  intro h
  induction h with
  | zero =>
    intro n id records hcell
    obtain ⟨id', records', rfl⟩ := n.exists_leaf
    cases mem_singleton.mp hcell
    rw [recordsOf_items]
    exact subset_append_left records []
  | succ h ih =>
    intro n id records hcell r hr
    rw [cells_eq_kids] at hcell
    rcases mem_cons.mp hcell with heq | hcell
    · obtain ⟨id', first, rest, rfl⟩ := n.exists_branch
      cases heq
    · obtain ⟨k, hk, hcell⟩ := mem_flatMap.mp hcell
      have hmem := ih hcell hr
      rw [recordsOf_items] at hmem ⊢
      obtain ⟨l, hl, hr⟩ := mem_flatMap.mp hmem
      rw [leaves_eq_kids]
      refine mem_flatMap.mpr ⟨l.under [n.id], ?_, hr⟩
      exact mem_map_of_mem (mem_flatMap.mpr ⟨k, hk, hl⟩)

/-- The leaves' addresses are among the addresses, in the same order. -/
theorem leaves_ids_sublist : ∀ {h : Nat} (n : Node ι K V h),
    (n.leaves.map LeafAt.id).Sublist n.ids := by
  intro h
  induction h with
  | zero =>
    intro n
    obtain ⟨id, records, rfl⟩ := n.exists_leaf
    exact List.Sublist.refl _
  | succ h ih =>
    intro n
    rw [leaves_eq_kids, ids_eq_kids, map_map]
    refine List.Sublist.cons _ ?_
    show ((n.kids.flatMap leaves).map LeafAt.id).Sublist _
    induction n.kids with
    | nil => exact List.Sublist.refl _
    | cons k kids ihk =>
      rw [flatMap_cons, flatMap_cons, map_append]
      exact (ih k).append ihk

end Node

/-! ## §2. Sides -/

/-- The two ways a walk may go. -/
inductive Side where
  | left
  | right
  deriving DecidableEq, Repr

/-- The other way. -/
def Side.flip : Side → Side
  | .left => .right
  | .right => .left

/-- A list in the order a walk to that side meets it. -/
def Side.order {α : Type} : Side → List α → List α
  | .left, xs => xs.reverse
  | .right, xs => xs

@[simp] theorem Side.order_singleton {α : Type} (d : Side) (x : α) : d.order [x] = [x] := by
  cases d <;> rfl

theorem Side.order_map {α β : Type} (d : Side) (f : α → β) (xs : List α) :
    d.order (xs.map f) = (d.order xs).map f := by
  cases d with
  | left => exact map_reverse.symm
  | right => rfl

theorem Side.mem_order {α : Type} {d : Side} {x : α} {xs : List α} : x ∈ d.order xs ↔ x ∈ xs := by
  cases d with
  | left => exact mem_reverse
  | right => exact Iff.rfl

theorem Side.order_perm {α : Type} (d : Side) (xs : List α) : (d.order xs).Perm xs := by
  cases d with
  | left => exact reverse_perm xs
  | right => exact List.Perm.refl xs

theorem Side.order_flatMap {α β : Type} (d : Side) (f : α → List β) (xs : List α) :
    d.order (xs.flatMap f) = (d.order xs).flatMap fun x => d.order (f x) := by
  cases d with
  | right => rfl
  | left =>
    show (xs.flatMap f).reverse = xs.reverse.flatMap fun x => (f x).reverse
    rw [reverse_flatMap]
    rfl

namespace Frame

/-- The siblings on one side of the hole, nearest first. -/
def beyond : Side → Frame ι K V h → List (Node ι K V h)
  | .left, .atFirst _ _ => []
  | .left, .atLater _ first before _ _ => (first :: before.map Prod.snd).reverse
  | .right, .atFirst _ rest => rest.map Prod.snd
  | .right, .atLater _ _ _ _ after => after.map Prod.snd

/-- The hole moved one child over, with `n` left behind in its old place. -/
def shift : Side → Frame ι K V h → Node ι K V h → Option (Frame ι K V h × Node ι K V h)
  | .left, .atFirst _ _, _ => none
  | .left, .atLater id first before k after, n =>
    match before.getLast? with
    | none => some (.atFirst id ((k, n) :: after), first)
    | some (k', m) => some (.atLater id first before.dropLast k' ((k, n) :: after), m)
  | .right, .atFirst _ [], _ => none
  | .right, .atFirst id ((k, m) :: rest), n => some (.atLater id n [] k rest, m)
  | .right, .atLater _ _ _ _ [], _ => none
  | .right, .atLater id first before k ((k', m) :: after), n =>
    some (.atLater id first (before ++ [(k, n)]) k' after, m)

variable {d : Side} {f f' : Frame ι K V h} {n m : Node ι K V h}

theorem shift_eq_none (hs : f.shift d n = none) : f.beyond d = [] := by
  cases d with
  | left =>
    cases f with
    | atFirst id rest => rfl
    | atLater id first before k after =>
      unfold shift at hs
      dsimp only at hs
      cases hb : before.getLast? with
      | none => rw [hb] at hs; cases hs
      | some e => rw [hb] at hs; cases hs
  | right =>
    cases f with
    | atFirst id rest =>
      cases rest with
      | nil => rfl
      | cons e rest => cases hs
    | atLater id first before k after =>
      cases after with
      | nil => rfl
      | cons e after => cases hs

/-- A shifted frame is the same branch; what it passed over is a sibling now. -/
theorem shift_eq_some (hs : f.shift d n = some (f', m)) :
    f'.fill m = f.fill n ∧ f.beyond d = m :: f'.beyond d ∧ n ∈ f'.siblings := by
  cases d with
  | left =>
    cases f with
    | atFirst id rest => cases hs
    | atLater id first before k after =>
      unfold shift at hs
      dsimp only at hs
      rcases eq_nil_or_concat before with rfl | ⟨init, e, rfl⟩
      · cases hs
        exact ⟨rfl, rfl, mem_cons_self⟩
      · rw [concat_eq_append] at hs ⊢
        rw [getLast?_concat] at hs
        dsimp only at hs
        rw [dropLast_concat] at hs
        cases hs
        refine ⟨?_, ?_, ?_⟩
        · show Node.branch id first (init ++ (e.1, e.2) :: (k, n) :: after)
            = Node.branch id first ((init ++ [e]) ++ (k, n) :: after)
          rw [append_assoc]
          rfl
        · show (first :: (init ++ [e]).map Prod.snd).reverse
            = e.2 :: (first :: init.map Prod.snd).reverse
          rw [map_append, ← cons_append, reverse_append]
          rfl
        · exact mem_cons_of_mem _ (mem_append_right _ mem_cons_self)
  | right =>
    cases f with
    | atFirst id rest =>
      cases rest with
      | nil => cases hs
      | cons e rest =>
        cases hs
        exact ⟨rfl, rfl, mem_cons_self⟩
    | atLater id first before k after =>
      cases after with
      | nil => cases hs
      | cons e after =>
        cases hs
        refine ⟨?_, rfl, ?_⟩
        · show Node.branch id first ((before ++ [(k, n)]) ++ (e.1, e.2) :: after)
            = Node.branch id first (before ++ (k, n) :: e :: after)
          rw [append_assoc]
          rfl
        · refine mem_cons_of_mem _ (mem_append_left _ ?_)
          rw [map_append]
          exact mem_concat_self

theorem shift_id (hs : f.shift d n = some (f', m)) : f'.id = f.id := by
  have hfill := (shift_eq_some hs).1
  rw [← fill_id f' m, hfill, fill_id]

theorem fill_kids_sides (f : Frame ι K V h) (n : Node ι K V h) :
    (f.fill n).kids = (f.beyond .left).reverse ++ n :: f.beyond .right := by
  cases f with
  | atFirst id rest => rfl
  | atLater id first before k after =>
    show first :: (before ++ (k, n) :: after).map Prod.snd
      = (first :: before.map Prod.snd).reverse.reverse ++ n :: after.map Prod.snd
    rw [reverse_reverse, map_append]
    rfl

/-- The leaves of a filled branch, in the order of a walk. -/
theorem fill_leaves (d : Side) (f : Frame ι K V h) (n : Node ι K V h) : d.order (f.fill n).leaves
      = ((((f.beyond d.flip).reverse.flatMap fun m => d.order m.leaves)
        ++ (d.order n.leaves ++ (f.beyond d).flatMap fun m => d.order m.leaves)).map
          (LeafAt.under [f.id])) := by
  have hkids : d.order (f.fill n).kids = (f.beyond d.flip).reverse ++ n :: f.beyond d := by
    rw [fill_kids_sides]
    cases d with
    | left =>
      show ((f.beyond .left).reverse ++ n :: f.beyond .right).reverse
        = (f.beyond .right).reverse ++ n :: f.beyond .left
      rw [reverse_append, reverse_cons, reverse_reverse, append_assoc]
      rfl
    | right => rfl
  rw [Node.leaves_eq_kids, fill_id, Side.order_map, Side.order_flatMap, hkids,
    flatMap_append, flatMap_cons]

end Frame

/-! ## §3. Walks -/

namespace Ctx

/-- The leaves a walk from the hole has still to meet. -/
def ahead (d : Side) : {h H : Nat} → Ctx ι K V h H → List (LeafAt ι K V)
  | _, _, .top => []
  | _, _, .cons f up =>
    ((f.beyond d).flatMap fun m => d.order m.leaves).map (LeafAt.under (up.pathIds.reverse ++ [f.id]))
      ++ up.ahead d

theorem ahead_cons (d : Side) (f : Frame ι K V h) (up : Ctx ι K V (h + 1) H) :
    (Ctx.cons f up).ahead d = ((f.beyond d).flatMap fun m => d.order m.leaves).map
      (LeafAt.under (up.pathIds.reverse ++ [f.id])) ++ up.ahead d := rfl

/-- **All leaves, in the order of a walk**: those behind the hole, those in it,
    those ahead. -/
theorem plug_leaves (d : Side) (c : Ctx ι K V h H) (n : Node ι K V h) :
    d.order (c.plug n).leaves = (c.ahead d.flip).reverse
      ++ ((d.order n.leaves).map (LeafAt.under c.pathIds.reverse) ++ c.ahead d) := by
  induction c with
  | top =>
    show d.order n.leaves = [] ++ ((d.order n.leaves).map (LeafAt.under []) ++ [])
    rw [nil_append, append_nil, LeafAt.under_nil]
  | cons f up ih =>
    have hback : (((f.beyond d.flip).flatMap fun m => d.flip.order m.leaves).map
        (LeafAt.under (up.pathIds.reverse ++ [f.id]))).reverse
        = ((f.beyond d.flip).reverse.flatMap fun m => d.order m.leaves).map
          (LeafAt.under (up.pathIds.reverse ++ [f.id])) := by
      rw [← map_reverse, reverse_flatMap]
      congr 2
      funext m
      cases d with
      | left => rfl
      | right => exact reverse_reverse _
    show d.order (up.plug (f.fill n)).leaves = _ ++ _
    rw [ih, Frame.fill_leaves, ahead_cons, ahead_cons, reverse_append, hback, map_map,
      LeafAt.under_under, map_append, map_append]
    show _ = _ ++ ((d.order n.leaves).map (LeafAt.under (f.id :: up.pathIds).reverse) ++ _)
    rw [reverse_cons]
    simp only [append_assoc]

variable {c : Ctx ι K V h H}

theorem after_of_beyond (hc : c.Forall fun f => f.beyond .right = []) : c.after = [] := by
  induction c with
  | top => rfl
  | cons f up ih =>
    have hitems : f.itemsAfter = [] := by
      have hf := hc.1
      cases f with
      | atFirst id rest =>
        rw [map_eq_nil_iff.mp (show rest.map Prod.snd = [] from hf)]
        rfl
      | atLater id first before k after =>
        rw [map_eq_nil_iff.mp (show after.map Prod.snd = [] from hf)]
        rfl
    show f.itemsAfter ++ up.after = []
    rw [hitems, ih hc.2]
    rfl

theorem ahead_right_of_after (hc : c.after = []) : c.ahead .right = [] := by
  induction c with
  | top => rfl
  | cons f up ih =>
    obtain ⟨hitems, hup⟩ := append_eq_nil_iff.mp hc
    have hbeyond : f.beyond .right = [] := by
      cases f with
      | atFirst id rest =>
        cases rest with
        | nil => rfl
        | cons e rest => cases hitems
      | atLater id first before k after =>
        cases after with
        | nil => rfl
        | cons e after => cases hitems
    rw [ahead_cons, hbeyond, ih hup]
    rfl

theorem ahead_eq_nil {d : Side} (hc : c.Forall fun f => f.beyond d = []) : c.ahead d = [] := by
  induction c with
  | top => rfl
  | cons f up ih =>
    rw [ahead_cons, hc.1, ih hc.2]
    rfl

/-- The records a walk has still to meet, from left to right, are those of the
    items on that side. -/
theorem recordsOf_after (c : Ctx ι K V h H) :
    recordsOf c.after = (c.ahead .right).flatMap LeafAt.records := by
  induction c with
  | top => rfl
  | cons f up ih =>
    have hf : recordsOf f.itemsAfter = (f.beyond .right).flatMap fun m => recordsOf m.items := by
      cases f with
      | atFirst id rest => exact Node.recordsOf_rest rest
      | atLater id first before k after => exact Node.recordsOf_rest after
    show recordsOf (f.itemsAfter ++ up.after) = _
    rw [recordsOf_append, hf, ih, ahead_cons, flatMap_append, flatMap_map, flatMap_assoc]
    simp only [Node.recordsOf_items]
    rfl

theorem recordsOf_before (c : Ctx ι K V h H) :
    recordsOf c.before = (c.ahead .left).reverse.flatMap LeafAt.records := by
  induction c with
  | top => rfl
  | cons f up ih =>
    have hf : recordsOf f.itemsBefore
        = (f.beyond .left).reverse.flatMap fun m => recordsOf m.items := by
      cases f with
      | atFirst id rest => rfl
      | atLater id first before k after =>
        show recordsOf (first.items ++ (before.flatMap fun e => Item.sep e.1 :: e.2.items)
          ++ [Item.sep k]) = (first :: before.map Prod.snd).reverse.reverse.flatMap _
        rw [recordsOf_append, recordsOf_append, Node.recordsOf_rest, reverse_reverse, flatMap_cons]
        exact append_nil _
    show recordsOf (up.before ++ f.itemsBefore) = _
    rw [recordsOf_append, hf, ih, ahead_cons, reverse_append, flatMap_append,
      ← map_reverse, flatMap_map, reverse_flatMap, flatMap_assoc]
    simp only [Node.recordsOf_items]
    show _ = _ ++ (f.beyond .left).reverse.flatMap fun m => m.leaves.reverse.reverse.flatMap LeafAt.records
    simp only [reverse_reverse]

/-- A context put into the hole of another. -/
def comp : {h m H : Nat} → Ctx ι K V h m → Ctx ι K V m H → Ctx ι K V h H
  | _, _, _, .top, outer => outer
  | _, _, _, .cons f up, outer => .cons f (up.comp outer)

variable {m : Nat}

theorem plug_comp (c : Ctx ι K V h m) (outer : Ctx ι K V m H) (n : Node ι K V h) :
    (c.comp outer).plug n = outer.plug (c.plug n) := by
  induction c with
  | top => rfl
  | cons f up ih => exact ih outer (f.fill n)

theorem pathIds_comp (c : Ctx ι K V h m) (outer : Ctx ι K V m H) :
    (c.comp outer).pathIds = c.pathIds ++ outer.pathIds := by
  induction c with
  | top => rfl
  | cons f up ih =>
    show f.id :: (up.comp outer).pathIds = f.id :: up.pathIds ++ outer.pathIds
    rw [ih]
    rfl

theorem ahead_comp (d : Side) (c : Ctx ι K V h m) (outer : Ctx ι K V m H) : (c.comp outer).ahead d
      = (c.ahead d).map (LeafAt.under outer.pathIds.reverse) ++ outer.ahead d := by
  induction c with
  | top => rfl
  | cons f up ih =>
    show (Ctx.cons f (up.comp outer)).ahead d = _
    rw [ahead_cons, ahead_cons, ih, map_append, map_map, LeafAt.under_under, pathIds_comp,
      reverse_append]
    simp only [append_assoc]

theorem height_le (c : Ctx ι K V h H) : h ≤ H := by
  induction c with
  | top => exact Nat.le_refl _
  | cons f up ih => exact Nat.le_of_succ_le ih

theorem pathIds_sublist (c : Ctx ι K V h H) : c.pathIds.Sublist c.ids := by
  induction c with
  | top => exact List.Sublist.refl _
  | cons f up ih => exact (sublist_append_of_sublist_right ih).cons_cons f.id

end Ctx

/-! ## §4. Where a key belongs -/

/-- The separators of a read-out. -/
def separatorsOf (items : List (Item K V)) : List K :=
  items.filterMap fun
    | .sep k => some k
    | .entry _ _ => none

@[simp] theorem separatorsOf_append (a b : List (Item K V)) :
    separatorsOf (a ++ b) = separatorsOf a ++ separatorsOf b :=
  filterMap_append

@[simp] theorem separatorsOf_records (records : List (K × V)) :
    separatorsOf (records.map fun r => Item.entry r.1 r.2) = [] := by
  unfold separatorsOf
  rw [filterMap_map, filterMap_eq_nil_iff]
  exact fun _ _ => rfl

theorem mem_separatorsOf {items : List (Item K V)} {k : K} :
    k ∈ separatorsOf items ↔ Item.sep k ∈ items := by
  unfold separatorsOf
  rw [mem_filterMap]
  constructor
  · rintro ⟨x, hx, heq⟩
    cases x with
    | entry j v => cases heq
    | sep j =>
      cases heq
      exact hx
  · exact fun h => ⟨_, h, rfl⟩

/-- Children with a separator each have a leaf for each separator. -/
theorem length_leaves_rest {rest : List (K × Node ι K V h)}
    (hkids : ∀ e ∈ rest, e.2.leaves.length = (separatorsOf e.2.items).length + 1) :
    (rest.flatMap fun e => e.2.leaves).length
      = (separatorsOf (rest.flatMap fun e => Item.sep e.1 :: e.2.items)).length := by
  induction rest with
  | nil => rfl
  | cons e rest ih =>
    have hsep : separatorsOf (Item.sep e.1 :: e.2.items) = e.1 :: separatorsOf e.2.items := rfl
    rw [flatMap_cons, flatMap_cons, separatorsOf_append, length_append, length_append, hsep,
      length_cons, hkids e mem_cons_self, ih fun x hx => hkids x (mem_cons_of_mem _ hx)]

/-- Between two leaves there is one separator. -/
theorem Node.length_leaves : ∀ {h : Nat} (n : Node ι K V h),
    n.leaves.length = (separatorsOf n.items).length + 1 := by
  intro h
  induction h with
  | zero =>
    intro n
    obtain ⟨id, records, rfl⟩ := n.exists_leaf
    show 1 = (separatorsOf (records.map fun r => Item.entry r.1 r.2)).length + 1
    rw [separatorsOf_records]
    rfl
  | succ h ih =>
    intro n
    obtain ⟨id, first, rest, rfl⟩ := n.exists_branch
    show ((first.leaves ++ rest.flatMap fun e => e.2.leaves).map (LeafAt.under [id])).length
      = (separatorsOf (first.items ++ rest.flatMap fun e => Item.sep e.1 :: e.2.items)).length + 1
    rw [length_map, length_append, separatorsOf_append, length_append, ih first,
      length_leaves_rest fun e _ => ih e.2]
    omega

theorem Ctx.length_ahead_left (c : Ctx ι K V h H) :
    (c.ahead .left).length = (separatorsOf c.before).length := by
  induction c with
  | top => rfl
  | cons f up ih =>
    have hf : ((f.beyond .left).flatMap fun m => m.leaves.reverse).length
        = (separatorsOf f.itemsBefore).length := by
      cases f with
      | atFirst id rest => rfl
      | atLater id first before k after =>
        show ((first :: before.map Prod.snd).reverse.flatMap fun m => m.leaves.reverse).length
          = (separatorsOf (first.items ++ (before.flatMap fun e => Item.sep e.1 :: e.2.items)
            ++ [Item.sep k])).length
        have hback : (first :: before.map Prod.snd).reverse.flatMap (fun m => m.leaves.reverse)
            = ((first :: before.map Prod.snd).flatMap Node.leaves).reverse := reverse_flatMap.symm
        rw [hback, length_reverse, flatMap_cons, length_append, first.length_leaves, flatMap_map,
          length_leaves_rest fun e _ => e.2.length_leaves, separatorsOf_append,
          separatorsOf_append, length_append, length_append]
        show _ = _ + 1
        omega
    rw [ahead_cons, length_append, length_map]
    show ((f.beyond .left).flatMap fun m => m.leaves.reverse).length + _
      = (separatorsOf (up.before ++ f.itemsBefore)).length
    rw [hf, ih, separatorsOf_append, length_append, Nat.add_comm]

/-- The leaves from the one where `k` belongs on. -/
def Node.leavesFrom [LinearOrder K] (k : K) (n : Node ι K V h) : List (LeafAt ι K V) :=
  n.leaves.drop ((separatorsOf n.items).countP fun sep => decide (sep ≤ k))

/-- They are the leaf at the end of the descent for `k`, and those ahead of it. -/
theorem Ctx.leavesFrom_plug [LinearOrder K] {c : Ctx ι K V 0 H} {k : K}
    (hbefore : ∀ x ∈ c.before, x.Before k) (hafter : ∀ x ∈ c.after, x.After k) (id : ι)
    (records : List (K × V)) : (c.plug (.leaf id records)).leavesFrom k
      = ⟨c.pathIds.reverse, id, records⟩ :: c.ahead .right := by
  have hleaves : (c.plug (.leaf id records)).leaves = (c.ahead .left).reverse
      ++ (⟨c.pathIds.reverse ++ [], id, records⟩ :: c.ahead .right) :=
    Ctx.plug_leaves .right c (.leaf id records)
  have hb : (separatorsOf c.before).countP (fun sep => decide (sep ≤ k))
      = (separatorsOf c.before).length :=
    countP_eq_length.mpr fun sep hsep =>
      decide_eq_true (hbefore _ (mem_separatorsOf.mp hsep))
  have ha : (separatorsOf c.after).countP (fun sep => decide (sep ≤ k)) = 0 :=
    countP_eq_zero.mpr fun sep hsep hle =>
      absurd (hafter _ (mem_separatorsOf.mp hsep)) (not_lt.mpr (of_decide_eq_true hle))
  have hcount : (separatorsOf (c.plug (.leaf id records)).items).countP
      (fun sep => decide (sep ≤ k)) = (c.ahead .left).reverse.length := by
    have hone : separatorsOf (Node.leaf id records : Node ι K V 0).items = [] :=
      separatorsOf_records records
    rw [Ctx.plug_items, separatorsOf_append, separatorsOf_append, hone, append_nil, countP_append,
      hb, ha, length_reverse, Ctx.length_ahead_left]
    rfl
  unfold Node.leavesFrom
  rw [hcount, hleaves, append_nil, drop_left]

end Pagedb.Lib
