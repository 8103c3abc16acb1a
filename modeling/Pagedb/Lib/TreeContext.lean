/-
  Pagedb.Lib.TreeContext — a search tree taken apart along one path.

  A `Frame` is a branch with one child taken out, a `Ctx` the frames from a
  subtree up to the root, nearest first.  Rewriting a tree bottom-up is
  recursion on the context.

    * `Ctx.plug_items`, `Ctx.plug_cells`, `Ctx.plug_leafPaths` — what a tree is
      made of, in terms of a subtree and its context;
    * `exists_frame` — one step of the descent by `childFor`;
    * `Ctx.before_of_lower`, `Ctx.after_of_upper` — a key between the separators
      around a hole belongs into it.
-/
import Pagedb.Lib.SearchTree

namespace Pagedb.Lib

open List

variable {ι K V : Type} {h H : Nat}

/-! ## §1. Frames -/

/-- A branch with one child taken out: its first child, or a later one together
    with the separator to its left. -/
inductive Frame (ι K V : Type) (h : Nat) where
  | atFirst (id : ι) (rest : List (K × Node ι K V h))
  | atLater (id : ι) (first : Node ι K V h) (before : List (K × Node ι K V h)) (k : K)
      (after : List (K × Node ι K V h))

namespace Frame

/-- The address of the branch. -/
def id : Frame ι K V h → ι
  | .atFirst id _ => id
  | .atLater id _ _ _ _ => id

/-- The branch with `n` put into the hole. -/
def fill : Frame ι K V h → Node ι K V h → Node ι K V (h + 1)
  | .atFirst id rest, n => .branch id n rest
  | .atLater id first before k after, n => .branch id first (before ++ (k, n) :: after)

/-- The branch, at address `i`, with two children and a separator between them
    put into the hole. -/
def fillPair (i : ι) : Frame ι K V h → Node ι K V h → K → Node ι K V h → Node ι K V (h + 1)
  | .atFirst _ rest, l, s, r => .branch i l ((s, r) :: rest)
  | .atLater _ first before k after, l, s, r =>
    .branch i first (before ++ (k, l) :: (s, r) :: after)

/-- The frame moved to another address. -/
def withId (i : ι) : Frame ι K V h → Frame ι K V h
  | .atFirst _ rest => .atFirst i rest
  | .atLater _ first before k after => .atLater i first before k after

/-- The children that are still in place. -/
def siblings : Frame ι K V h → List (Node ι K V h)
  | .atFirst _ rest => rest.map Prod.snd
  | .atLater _ first before _ after => first :: (before.map Prod.snd ++ after.map Prod.snd)

/-- The branch's own cell when the hole's child lies at `hole`. -/
def cell (hole : ι) : Frame ι K V h → Cell ι K V
  | .atFirst _ rest => .branch hole (Node.links rest)
  | .atLater _ first before k after =>
    .branch first.id (Node.links before ++ (k, hole) :: Node.links after)

/-- The items to the left of the hole. -/
def itemsBefore : Frame ι K V h → List (Item K V)
  | .atFirst _ _ => []
  | .atLater _ first before k _ =>
    first.items ++ (before.flatMap fun e => .sep e.1 :: e.2.items) ++ [.sep k]

/-- The items to the right of the hole. -/
def itemsAfter : Frame ι K V h → List (Item K V)
  | .atFirst _ rest => rest.flatMap fun e => .sep e.1 :: e.2.items
  | .atLater _ _ _ _ after => after.flatMap fun e => .sep e.1 :: e.2.items

variable (f : Frame ι K V h)

@[simp] theorem fill_id (n : Node ι K V h) : (f.fill n).id = f.id := by
  cases f <;> rfl

@[simp] theorem fillPair_id (i : ι) (l r : Node ι K V h) (s : K) :
    (f.fillPair i l s r).id = i := by
  cases f <;> rfl

@[simp] theorem withId_id (i : ι) : (f.withId i).id = i := by
  cases f <;> rfl

@[simp] theorem withId_siblings (i : ι) :
    (f.withId i).siblings = f.siblings := by
  cases f <;> rfl

@[simp] theorem withId_itemsBefore (i : ι) :
    (f.withId i).itemsBefore = f.itemsBefore := by
  cases f <;> rfl

@[simp] theorem withId_itemsAfter (i : ι) :
    (f.withId i).itemsAfter = f.itemsAfter := by
  cases f <;> rfl

theorem fill_cell (n : Node ι K V h) : (f.fill n).cell = f.cell n.id := by
  cases f with
  | atFirst id rest => rfl
  | atLater id first before k after =>
    show Cell.branch first.id (Node.links (before ++ (k, n) :: after)) = _
    unfold Node.links
    rw [map_append]
    rfl

theorem fill_items (n : Node ι K V h) :
    (f.fill n).items = f.itemsBefore ++ n.items ++ f.itemsAfter := by
  cases f with
  | atFirst id rest => rfl
  | atLater id first before k after =>
    simp only [fill, Node.items, itemsBefore, itemsAfter, flatMap_append, flatMap_cons,
      append_assoc, cons_append, nil_append]

theorem fillPair_items (i : ι) (l r : Node ι K V h) (s : K) :
    (f.fillPair i l s r).items
      = f.itemsBefore ++ (l.items ++ .sep s :: r.items) ++ f.itemsAfter := by
  cases f <;> simp only [fillPair, Node.items, itemsBefore, itemsAfter, flatMap_append,
    flatMap_cons, append_assoc, cons_append, nil_append]

theorem perm_hole {α : Type} (g : Node ι K V h → List α) (first n : Node ι K V h)
    (before after : List (K × Node ι K V h)) (k : K) :
    (g first ++ (before ++ (k, n) :: after).flatMap fun e => g e.2).Perm
      (g n ++ (first :: (before.map Prod.snd ++ after.map Prod.snd)).flatMap g) := by
  rw [flatMap_append, flatMap_cons, flatMap_cons, flatMap_append, flatMap_map, flatMap_map]
  refine List.Perm.trans ?_ (perm_append_comm_assoc _ _ _)
  refine List.Perm.append_left _ ?_
  exact perm_append_comm_assoc _ _ _

theorem fill_cells (n : Node ι K V h) : (f.fill n).cells.Perm
      ((f.id, f.cell n.id) :: (n.cells ++ f.siblings.flatMap Node.cells)) := by
  cases f with
  | atFirst id rest =>
    show ((id, Cell.branch n.id (Node.links rest))
      :: (n.cells ++ rest.flatMap fun e => e.2.cells)).Perm _
    refine List.Perm.cons _ (List.Perm.append_left _ ?_)
    rw [siblings, flatMap_map]
  | atLater id first before k after =>
    have hcell : (Node.branch id first (before ++ (k, n) :: after)).cell
        = (Frame.atLater id first before k after).cell n.id :=
      fill_cell (.atLater id first before k after) n
    show ((id, (Node.branch id first (before ++ (k, n) :: after)).cell)
      :: (first.cells ++ (before ++ (k, n) :: after).flatMap fun e => e.2.cells)).Perm _
    rw [hcell]
    exact List.Perm.cons _ (perm_hole Node.cells first n before after k)

theorem fill_leafPaths (n : Node ι K V h) : (f.fill n).leafPaths.Perm
      ((n.leafPaths ++ f.siblings.flatMap Node.leafPaths).map fun l => (l.1, f.id :: l.2)) := by
  cases f with
  | atFirst id rest =>
    show ((n.leafPaths ++ rest.flatMap fun e => e.2.leafPaths).map fun l => (l.1, id :: l.2)).Perm _
    rw [siblings, flatMap_map]
    rfl
  | atLater id first before k after =>
    exact (perm_hole Node.leafPaths first n before after k).map _

theorem fill_kids (n : Node ι K V h) :
    (f.fill n).kids.Perm (n :: f.siblings) := by
  cases f with
  | atFirst id rest => exact List.Perm.refl _
  | atLater id first before k after =>
    show (first :: (before ++ (k, n) :: after).map Prod.snd).Perm _
    rw [map_append, map_cons]
    exact (perm_middle.cons first).trans (List.Perm.swap _ _ _)

theorem fillPair_kids (i : ι) (l r : Node ι K V h) (s : K) :
    (f.fillPair i l s r).kids.Perm (l :: r :: f.siblings) := by
  cases f with
  | atFirst id rest => exact List.Perm.refl _
  | atLater id first before k after =>
    show (first :: (before ++ (k, l) :: (s, r) :: after).map Prod.snd).Perm _
    rw [map_append, map_cons, map_cons]
    refine (perm_middle.cons first).trans ((List.Perm.swap _ _ _).trans ?_)
    exact ((perm_middle.cons first).trans (List.Perm.swap _ _ _)).cons l

theorem fill_ids_congr {n n' : Node ι K V h} (hn : n.ids = n'.ids) :
    (f.fill n).ids = (f.fill n').ids := by
  cases f with
  | atFirst id rest =>
    show id :: (n.ids ++ _) = id :: (n'.ids ++ _)
    rw [hn]
  | atLater id first before k after =>
    show id :: (first.ids ++ (before ++ (k, n) :: after).flatMap fun e => e.2.ids)
      = id :: (first.ids ++ (before ++ (k, n') :: after).flatMap fun e => e.2.ids)
    rw [flatMap_append, flatMap_cons, flatMap_append, flatMap_cons, hn]

theorem fill_leafPaths_congr {n n' : Node ι K V h}
    (hn : n.leafPaths = n'.leafPaths) : (f.fill n).leafPaths = (f.fill n').leafPaths := by
  cases f with
  | atFirst id rest =>
    show (n.leafPaths ++ _).map _ = (n'.leafPaths ++ _).map _
    rw [hn]
  | atLater id first before k after =>
    show (first.leafPaths ++ (before ++ (k, n) :: after).flatMap fun e => e.2.leafPaths).map _
      = (first.leafPaths ++ (before ++ (k, n') :: after).flatMap fun e => e.2.leafPaths).map _
    rw [flatMap_append, flatMap_cons, flatMap_append, flatMap_cons, hn]

end Frame

/-! ## §2. Contexts -/

/-- The frames from height `h` up to the root at height `H`. -/
inductive Ctx (ι K V : Type) : Nat → Nat → Type where
  | top {h : Nat} : Ctx ι K V h h
  | cons {h H : Nat} (f : Frame ι K V h) (up : Ctx ι K V (h + 1) H) : Ctx ι K V h H

namespace Ctx

/-- The whole tree with `n` put into the hole. -/
def plug : {h H : Nat} → Ctx ι K V h H → Node ι K V h → Node ι K V H
  | _, _, .top, n => n
  | _, _, .cons f up, n => up.plug (f.fill n)

/-- The items to the left of the hole. -/
def before : {h H : Nat} → Ctx ι K V h H → List (Item K V)
  | _, _, .top => []
  | _, _, .cons f up => up.before ++ f.itemsBefore

/-- The items to the right of the hole. -/
def after : {h H : Nat} → Ctx ι K V h H → List (Item K V)
  | _, _, .top => []
  | _, _, .cons f up => f.itemsAfter ++ up.after

/-- The cells outside the hole, when the hole's node lies at `hole`. -/
def cells : {h H : Nat} → Ctx ι K V h H → ι → List (ι × Cell ι K V)
  | _, _, .top, _ => []
  | _, _, .cons f up, hole =>
    (f.id, f.cell hole) :: (f.siblings.flatMap Node.cells ++ up.cells f.id)

/-- The addresses outside the hole. -/
def ids : {h H : Nat} → Ctx ι K V h H → List ι
  | _, _, .top => []
  | _, _, .cons f up => f.id :: (f.siblings.flatMap Node.ids ++ up.ids)

/-- The branch addresses above the hole, nearest first. -/
def pathIds : {h H : Nat} → Ctx ι K V h H → List ι
  | _, _, .top => []
  | _, _, .cons f up => f.id :: up.pathIds

/-- The paths of the leaves outside the hole. -/
def siblingPaths : {h H : Nat} → Ctx ι K V h H → List (ι × List ι)
  | _, _, .top => []
  | _, _, .cons f up =>
    (f.siblings.flatMap Node.leafPaths).map (fun l => (l.1, up.pathIds.reverse ++ f.id :: l.2))
      ++ up.siblingPaths

/-- One more frame at the root. -/
def snoc : {h H : Nat} → Ctx ι K V h H → Frame ι K V H → Ctx ι K V h (H + 1)
  | _, _, .top, f => .cons f .top
  | _, _, .cons g up, f => .cons g (up.snoc f)

/-- Every frame of the context satisfies `P`. -/
def Forall (P : ∀ {h : Nat}, Frame ι K V h → Prop) : {h H : Nat} → Ctx ι K V h H → Prop
  | _, _, .top => True
  | _, _, .cons f up => P f ∧ up.Forall P

variable (c : Ctx ι K V h H)

theorem plug_items (n : Node ι K V h) :
    (c.plug n).items = c.before ++ n.items ++ c.after := by
  induction c with
  | top =>
    show n.items = [] ++ n.items ++ []
    rw [nil_append, append_nil]
  | cons f up ih =>
    show (up.plug (f.fill n)).items = (up.before ++ f.itemsBefore) ++ n.items
      ++ (f.itemsAfter ++ up.after)
    rw [ih, Frame.fill_items]
    simp only [append_assoc]

theorem plug_cells (n : Node ι K V h) :
    (c.plug n).cells.Perm (n.cells ++ c.cells n.id) := by
  induction c with
  | top =>
    show n.cells.Perm (n.cells ++ [])
    rw [append_nil]
  | cons f up ih =>
    show (up.plug (f.fill n)).cells.Perm
      (n.cells ++ (f.id, f.cell n.id) :: (f.siblings.flatMap Node.cells ++ up.cells f.id))
    refine (ih (f.fill n)).trans ?_
    rw [Frame.fill_id]
    refine ((f.fill_cells n).append_right _).trans ?_
    rw [cons_append, append_assoc]
    exact perm_middle.symm

theorem cells_map_fst (hole : ι) : (c.cells hole).map Prod.fst = c.ids := by
  induction c generalizing hole with
  | top => rfl
  | cons f up ih =>
    show f.id :: (f.siblings.flatMap Node.cells ++ up.cells f.id).map Prod.fst
      = f.id :: (f.siblings.flatMap Node.ids ++ up.ids)
    rw [map_append, ih, map_flatMap]
    simp only [Node.cells_map_fst]

theorem plug_ids (n : Node ι K V h) : (c.plug n).ids.Perm (n.ids ++ c.ids) := by
  have := (c.plug_cells n).map Prod.fst
  rwa [map_append, Node.cells_map_fst, Node.cells_map_fst, cells_map_fst] at this

theorem plug_leafPaths (n : Node ι K V h) : (c.plug n).leafPaths.Perm
      ((n.leafPaths.map fun l => (l.1, c.pathIds.reverse ++ l.2)) ++ c.siblingPaths) := by
  induction c with
  | top =>
    show n.leafPaths.Perm (n.leafPaths.map id ++ [])
    rw [append_nil, map_id]
  | cons f up ih =>
    show (up.plug (f.fill n)).leafPaths.Perm
      ((n.leafPaths.map fun l => (l.1, (f.id :: up.pathIds).reverse ++ l.2))
        ++ ((f.siblings.flatMap Node.leafPaths).map
            (fun l => (l.1, up.pathIds.reverse ++ f.id :: l.2)) ++ up.siblingPaths))
    refine (ih (f.fill n)).trans ?_
    rw [← append_assoc]
    refine List.Perm.append_right _ ?_
    refine ((f.fill_leafPaths n).map _).trans ?_
    rw [map_map, map_append]
    simp only [Function.comp_def, reverse_cons, append_assoc, cons_append, nil_append]
    exact List.Perm.refl _

variable {n n' : Node ι K V h}

theorem plug_ids_congr (hn : n.ids = n'.ids) :
    (c.plug n).ids = (c.plug n').ids := by
  induction c with
  | top => exact hn
  | cons f up ih => exact ih (f.fill_ids_congr hn)

theorem plug_leafPaths_congr (hn : n.leafPaths = n'.leafPaths) :
    (c.plug n).leafPaths = (c.plug n').leafPaths := by
  induction c with
  | top => exact hn
  | cons f up ih => exact ih (f.fill_leafPaths_congr hn)

theorem plug_id_congr (hn : n.id = n'.id) : (c.plug n).id = (c.plug n').id := by
  induction c with
  | top => exact hn
  | cons f up ih => exact ih (by rw [Frame.fill_id, Frame.fill_id])

theorem pathIds_subset : c.pathIds ⊆ c.ids := by
  induction c with
  | top => exact List.Subset.refl _
  | cons f up ih =>
    intro p hp
    rcases mem_cons.mp hp with rfl | hp
    · exact mem_cons_self
    · exact mem_cons_of_mem _ (mem_append_right _ (ih hp))

/-- The way down to a leaf outside the hole stays outside it. -/
theorem siblingPaths_snd_mem : ∀ l ∈ c.siblingPaths, ∀ p ∈ l.2, p ∈ c.ids := by
  induction c with
  | top => intro l hl; cases hl
  | cons f up ih =>
    intro l hl p hp
    rcases mem_append.mp hl with hl | hl
    · obtain ⟨l', hl', rfl⟩ := mem_map.mp hl
      obtain ⟨n, hn, hln⟩ := mem_flatMap.mp hl'
      rcases mem_append.mp hp with hp | hp
      · refine mem_cons_of_mem _ (mem_append_right _ ?_)
        exact up.pathIds_subset (mem_reverse.mp hp)
      · rcases mem_cons.mp hp with rfl | hp
        · exact mem_cons_self
        · refine mem_cons_of_mem _ (mem_append_left _ ?_)
          exact mem_flatMap.mpr ⟨n, hn, Node.leafPaths_snd_mem _ n l' hln p hp⟩
    · exact mem_cons_of_mem _ (mem_append_right _ (ih l hl p hp))

theorem plug_snoc (f : Frame ι K V H) (n : Node ι K V h) :
    (c.snoc f).plug n = f.fill (c.plug n) := by
  induction c with
  | top => rfl
  | cons g up ih => exact ih f (g.fill n)

theorem pathIds_snoc (f : Frame ι K V H) :
    (c.snoc f).pathIds = c.pathIds ++ [f.id] := by
  induction c with
  | top => rfl
  | cons g up ih =>
    show g.id :: (up.snoc f).pathIds = _
    rw [ih]
    rfl

theorem Forall.snoc {P : ∀ {h : Nat}, Frame ι K V h → Prop} {c : Ctx ι K V h H}
    {f : Frame ι K V H} (hc : c.Forall P) (hf : P f) : (c.snoc f).Forall P := by
  induction c with
  | top => exact ⟨hf, trivial⟩
  | cons g up ih => exact ⟨hc.1, ih hc.2 hf⟩

/-- What holds of the items beside every frame's hole holds beside the hole of
    the context. -/
theorem Forall.items {P Q : Item ι V → Prop} {c : Ctx K ι V h H}
    (hc : c.Forall fun f => (∀ x ∈ f.itemsBefore, P x) ∧ ∀ x ∈ f.itemsAfter, Q x) :
    (∀ x ∈ c.before, P x) ∧ ∀ x ∈ c.after, Q x := by
  induction c with
  | top => exact ⟨nofun, nofun⟩
  | cons f up ih =>
    obtain ⟨⟨hb, ha⟩, hup⟩ := hc
    obtain ⟨hub, hua⟩ := ih hup
    constructor
    · intro x hx
      rcases mem_append.mp hx with hx | hx
      · exact hub x hx
      · exact hb x hx
    · intro x hx
      rcases mem_append.mp hx with hx | hx
      · exact ha x hx
      · exact hua x hx

end Ctx

/-! ## §3. Descent by key -/

section Descent

variable [LinearOrder K]

/-- The entry's separator is not above `k`. -/
def upTo {α : Type} (k : K) (e : K × α) : Bool := decide (e.1 ≤ k)

/-- The child a descent for `k` takes: the one right of the last separator that
    is not above `k`. -/
def childFor (first : ι) (rest : List (K × ι)) (k : K) : ι :=
  match (rest.takeWhile (upTo k)).getLast? with
  | none => first
  | some e => e.2

theorem InOrder.lt_of_append {a b : List (Item K V)} (hs : InOrder (a ++ b)) :
    ∀ x ∈ a, ∀ y ∈ b, x.lt y :=
  (pairwise_append.mp hs).2.2

/-- Everything right of the separators up to `k` lies after `k`. -/
theorem after_of_dropWhile {k : K} (rest : List (K × Node ι K V h))
    (hs : InOrder ((rest.dropWhile (upTo k)).flatMap fun e => Item.sep e.1 :: e.2.items)) :
    ∀ x ∈ (rest.dropWhile (upTo k)).flatMap (fun e => Item.sep e.1 :: e.2.items), x.After k := by
  cases hd : rest.dropWhile (upTo k) with
  | nil => intro x hx; cases hx
  | cons e tail =>
    have hk : k < e.1 := by
      have := head?_dropWhile_not (upTo k) rest
      rw [hd] at this
      simpa [upTo] using this
    rw [hd, flatMap_cons, cons_append] at hs
    intro x hx
    rw [flatMap_cons, cons_append] at hx
    rcases mem_cons.mp hx with rfl | hx
    · exact hk
    · exact Item.After.of_sep_lt ((pairwise_cons.mp hs).1 x hx) hk

/-- The separators of a branch increase. -/
theorem links_sorted {id : ι} {first : Node ι K V h} {rest : List (K × Node ι K V h)}
    (hs : InOrder (Node.branch id first rest).items) :
    (Node.links rest).Pairwise fun a b => a.1 < b.1 := by
  have hrest : InOrder (rest.flatMap fun e => Item.sep e.1 :: e.2.items) :=
    (pairwise_append.mp (show InOrder (first.items
      ++ rest.flatMap fun e => Item.sep e.1 :: e.2.items) from hs)).2.1
  clear hs
  unfold Node.links
  rw [pairwise_map]
  induction rest with
  | nil => exact List.Pairwise.nil
  | cons e rest ih =>
    rw [flatMap_cons, cons_append] at hrest
    obtain ⟨hhead, htail⟩ := pairwise_cons.mp hrest
    refine pairwise_cons.mpr ⟨?_, ih (pairwise_append.mp htail).2.1⟩
    intro e' he'
    have hmem : Item.sep e'.1 ∈ e.2.items ++ rest.flatMap fun e => Item.sep e.1 :: e.2.items :=
      mem_append_right _ (mem_flatMap.mpr ⟨e', he', mem_cons_self⟩)
    exact hhead _ hmem

/-- One step of the descent: the frame around the child `childFor` names. -/
theorem exists_frame (id : ι) (first : Node ι K V h) (rest : List (K × Node ι K V h)) (k : K)
    (hs : InOrder (Node.branch id first rest).items) :
    ∃ (f : Frame ι K V h) (n : Node ι K V h), Node.branch id first rest = f.fill n
      ∧ f.id = id ∧ n.id = childFor first.id (Node.links rest) k
      ∧ (∀ x ∈ f.itemsBefore, x.Before k) ∧ (∀ x ∈ f.itemsAfter, x.After k) := by
  have hsplit := takeWhile_append_dropWhile (p := upTo k) (l := rest)
  have htake : (Node.links rest).takeWhile (upTo k)
      = Node.links (rest.takeWhile (upTo k)) := takeWhile_map
  have hafter : ∀ x ∈ (rest.dropWhile (upTo k)).flatMap
      (fun e => Item.sep e.1 :: e.2.items), x.After k := by
    refine after_of_dropWhile rest ?_
    have hs' : InOrder (first.items ++ rest.flatMap fun e => Item.sep e.1 :: e.2.items) := hs
    rw [← hsplit, flatMap_append, ← append_assoc] at hs'
    exact (pairwise_append.mp hs').2.1
  unfold childFor
  rw [htake]
  rcases eq_nil_or_concat (rest.takeWhile (upTo k)) with hnil | ⟨init, e, hcat⟩
  · -- every separator is above `k`
    refine ⟨.atFirst id rest, first, rfl, rfl, ?_, nofun, ?_⟩
    · rw [hnil]; rfl
    · rw [hnil, nil_append] at hsplit
      rw [hsplit] at hafter
      exact hafter
  · -- `e` is the last separator that is not above `k`
    have hle : e.1 ≤ k := by
      have hmem : e ∈ rest.takeWhile (upTo k) := by
        rw [hcat]; simp
      simpa [upTo] using mem_takeWhile_imp hmem
    have hrest : rest = init ++ (e.1, e.2) :: rest.dropWhile (upTo k) := by
      conv_lhs => rw [← hsplit, hcat]
      simp
    refine ⟨.atLater id first init e.1 (rest.dropWhile (upTo k)), e.2, ?_, rfl, ?_, ?_, hafter⟩
    · show Node.branch id first rest = Node.branch id first _
      rw [← hrest]
    · rw [hcat]
      unfold Node.links
      simp
    · intro x hx
      rcases mem_append.mp hx with hx | hx
      · refine Item.Before.of_lt_sep ?_ hle
        have hs' : InOrder (first.items ++ rest.flatMap fun e => Item.sep e.1 :: e.2.items) := hs
        rw [hrest, flatMap_append, ← append_assoc, flatMap_cons] at hs'
        exact hs'.lt_of_append x hx _ (by simp)
      · rw [mem_singleton.mp hx]
        exact hle

end Descent

/-! ## §4. The separators around a hole -/

/-- The separator left of the hole. -/
def Frame.lower : Frame ι K V h → Option K
  | .atFirst _ _ => none
  | .atLater _ _ _ k _ => some k

/-- The separator right of the hole. -/
def Frame.upper : Frame ι K V h → Option K
  | .atFirst _ rest => rest.head?.map Prod.fst
  | .atLater _ _ _ _ after => after.head?.map Prod.fst

namespace Ctx

/-- The nearest separator left of the hole. -/
def lower : {h H : Nat} → Ctx ι K V h H → Option K
  | _, _, .top => none
  | _, _, .cons f up => f.lower.or up.lower

/-- The nearest separator right of the hole. -/
def upper : {h H : Nat} → Ctx ι K V h H → Option K
  | _, _, .top => none
  | _, _, .cons f up => f.upper.or up.upper

/-- The items left of the hole end with the nearest separator. -/
theorem before_lower (c : Ctx ι K V h H) :
    match c.lower with
    | none => c.before = []
    | some a => ∃ init, c.before = init ++ [.sep a] := by
  induction c with
  | top => rfl
  | cons f up ih =>
    cases f with
    | atFirst id rest =>
      show match up.lower with
        | none => up.before ++ [] = []
        | some a => ∃ init, up.before ++ [] = init ++ [Item.sep a]
      rw [append_nil]
      exact ih
    | atLater id first before k after =>
      exact ⟨up.before ++ (first.items ++ before.flatMap fun e => Item.sep e.1 :: e.2.items),
        (append_assoc ..).symm⟩

/-- The items right of the hole begin with the nearest separator. -/
theorem after_upper (c : Ctx ι K V h H) :
    match c.upper with
    | none => c.after = []
    | some a => ∃ rest, c.after = .sep a :: rest := by
  induction c with
  | top => rfl
  | cons f up ih =>
    have hrest : ∀ {m : Nat} (rest : List (K × Node ι K V m)),
        match (rest.head?.map Prod.fst).or up.upper with
        | none => (rest.flatMap fun e => Item.sep e.1 :: e.2.items) ++ up.after = []
        | some a => ∃ tail, (rest.flatMap fun e => Item.sep e.1 :: e.2.items) ++ up.after
            = Item.sep a :: tail := by
      intro m rest
      cases rest with
      | nil => exact ih
      | cons e rest => exact ⟨_, rfl⟩
    cases f with
    | atFirst id rest => exact hrest rest
    | atLater id first before k after => exact hrest after

section Between

variable [LinearOrder K]

theorem before_of_lower {c : Ctx ι K V h H} {k : K} (hord : InOrder c.before)
    (hk : ∀ a ∈ c.lower, a ≤ k) : ∀ x ∈ c.before, x.Before k := by
  have hc := c.before_lower
  intro x hx
  cases hl : c.lower with
  | none =>
    rw [hl] at hc
    have hc : c.before = [] := hc
    rw [hc] at hx
    cases hx
  | some a =>
    rw [hl] at hc
    obtain ⟨init, hinit⟩ := hc
    have ha : a ≤ k := hk a hl
    rw [hinit] at hx hord
    rcases mem_append.mp hx with hx | hx
    · exact Item.Before.of_lt_sep (hord.lt_of_append x hx _ (mem_singleton_self _)) ha
    · rw [mem_singleton.mp hx]
      exact ha

theorem after_of_upper {c : Ctx ι K V h H} {k : K} (hord : InOrder c.after)
    (hk : ∀ a ∈ c.upper, k < a) : ∀ x ∈ c.after, x.After k := by
  have hc := c.after_upper
  intro x hx
  cases hu : c.upper with
  | none =>
    rw [hu] at hc
    have hc : c.after = [] := hc
    rw [hc] at hx
    cases hx
  | some a =>
    rw [hu] at hc
    obtain ⟨rest, hrest⟩ := hc
    have ha : k < a := hk a hu
    rw [hrest] at hx hord
    rcases mem_cons.mp hx with rfl | hx
    · exact ha
    · exact Item.After.of_sep_lt ((pairwise_cons.mp hord).1 x hx) ha

end Between

end Ctx

end Pagedb.Lib
