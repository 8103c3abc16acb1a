/-
  Pagedb.BTree.LeafSplit — where `split_leaf` finds a cut (`btree/split.rs`).

  The walk goes left while the left half is too large and right while the right
  half is.  A part of a leaf that fits also fits (`sliceFits_part`), so the two
  tests change once each along the leaf, and the walk ends at a legal cut exactly
  if there is one.

  Main results:
    * `splitPointFrom_legal`  — a walk that can end ends at a legal cut;
    * `splitPointFrom_none`   — without a legal cut it never ends;
    * `split_leaf_is_legal`   — both for the leaf that a record has overfilled.
-/
import Pagedb.BTree.BulkRecords

namespace Pagedb

open Lib List

variable {pageSize : Nat}

/-! ## §1. A part of a leaf -/

/-- The bytes of the records without a shared prefix of length `p`. -/
def strippedBytes (p : Nat) (records : Records) : Nat :=
  (records.map fun r => 2 + (r.1.length - p) + r.2.encodedSize).sum

theorem sliceFits_eq (records : Records) : sliceFits records pageSize
    = decide (HEADER_LEN + lcpLen records + records.length * 2 + strippedBytes (lcpLen records) records
      ≤ bodyCapacity pageSize) := rfl

theorem sharedPrefix_self (a : Bytes) : sharedPrefix a a = a.length := by
  induction a with
  | nil => rfl
  | cons x a ih =>
    have hstep : sharedPrefix (x :: a) (x :: a) = sharedPrefix a a + 1 := by
      unfold sharedPrefix
      simp
    rw [hstep, ih, length_cons]

/-- A prefix of both keys is no longer than what they share. -/
theorem length_le_sharedPrefix (p : Bytes) :
    ∀ {a b : Bytes}, p <+: a → p <+: b → p.length ≤ sharedPrefix a b := by
  induction p with
  | nil => exact fun _ _ => Nat.zero_le _
  | cons x p ih =>
    intro a b ha hb
    cases a with
    | nil => exact absurd (prefix_nil.mp ha) (cons_ne_nil _ _)
    | cons y a =>
      cases b with
      | nil => exact absurd (prefix_nil.mp hb) (cons_ne_nil _ _)
      | cons z b =>
        obtain ⟨rfl, hpa⟩ := cons_prefix_cons.mp ha
        obtain ⟨rfl, hpb⟩ := cons_prefix_cons.mp hb
        have hstep : sharedPrefix (x :: a) (x :: b) = sharedPrefix a b + 1 := by
          unfold sharedPrefix
          simp
        rw [hstep, length_cons]
        exact Nat.succ_le_succ (ih hpa hpb)

theorem lcpLen_eq (records : Records) (hne : records ≠ []) :
    lcpLen records = sharedPrefix (records.head hne).1 (records.getLast hne).1 := by
  match records with
  | [(k, v)] => exact (sharedPrefix_self k).symm
  | (first, v) :: r :: records => rfl

variable {records : Records} {a b : UInt8}

/-- Every key of a leaf starts with what its first and its last key share. -/
theorem prefix_of_mem (hasc : Ascending records) (hne : records ≠ []) {r : Bytes × LeafValue}
    (hr : r ∈ records) : (records.head hne).1.take (lcpLen records) <+: r.1 := by
  obtain ⟨hpre, hlen⟩ := sharedPrefix_starts (records.head hne).1 (records.getLast hne).1
  rw [← lcpLen_eq records hne] at hpre hlen
  -- the last key has it by definition, any other lies between the first and the last
  by_cases hlast : r = records.getLast hne
  · rw [hlast]
    exact hpre
  · have hlt : r.1 < (records.getLast hne).1 := by
      have hsplit := dropLast_append_getLast hne
      rw [← hsplit] at hasc hr
      rcases mem_append.mp hr with hr | hr
      · exact (pairwise_append.mp hasc).2.2 r hr _ (mem_singleton_self _)
      · exact absurd (mem_singleton.mp hr) hlast
    have hge : (records.head hne).1 ≤ r.1 := by
      cases records with
      | nil => exact absurd rfl hne
      | cons first records =>
        rcases mem_cons.mp hr with rfl | hr
        · exact le_refl _
        · exact le_of_lt ((pairwise_cons.mp hasc).1 r hr)
    refine prefix_of_between hpre ?_ hlt
    exact le_trans (prefix_le (List.take_prefix _ _)) hge

/-- Part of the records share at least what all of them share. -/
theorem lcpLen_le_of_sublist {part : Records} (hasc : Ascending records)
    (hsub : part.Sublist records) (hne : part ≠ []) : lcpLen records ≤ lcpLen part := by
  have hne' : records ≠ [] := fun h => hne (sublist_nil.mp (h ▸ hsub))
  have hfirst := prefix_of_mem hasc hne' (hsub.subset (head_mem hne))
  have hlast := prefix_of_mem hasc hne' (hsub.subset (getLast_mem hne))
  have hlen := length_le_sharedPrefix _ hfirst hlast
  have hle : lcpLen records ≤ (records.head hne').1.length := by
    rw [lcpLen_eq records hne']
    exact (sharedPrefix_starts _ _).2
  rw [length_take, Nat.min_eq_left hle, ← lcpLen_eq part hne] at hlen
  exact hlen

/-- A longer prefix is stored once and saved at every key. -/
theorem strippedBytes_le {p q : Nat} (hpq : p ≤ q) (hne : records ≠ [])
    (hq : ∀ r ∈ records, q ≤ r.1.length) :
    q + strippedBytes q records ≤ p + strippedBytes p records := by
  induction records with
  | nil => exact absurd rfl hne
  | cons r records ih =>
    have hr := hq r mem_cons_self
    have hstep : ∀ n, strippedBytes n (r :: records)
        = 2 + (r.1.length - n) + r.2.encodedSize + strippedBytes n records := fun n => rfl
    rw [hstep, hstep]
    by_cases hnil : records = []
    · subst hnil
      have hzero : ∀ n, strippedBytes n [] = 0 := fun n => rfl
      rw [hzero, hzero]
      omega
    · have := ih hnil fun s hs => hq s (mem_cons_of_mem _ hs)
      omega

theorem strippedBytes_append (p : Nat) (a b : Records) :
    strippedBytes p (a ++ b) = strippedBytes p a + strippedBytes p b := by
  unfold strippedBytes
  rw [map_append, sum_append]

/-- **A part of a leaf that fits also fits.** -/
theorem sliceFits_part {left part right : Records} (hasc : Ascending (left ++ part ++ right))
    (hne : part ≠ []) (hfits : sliceFits (left ++ part ++ right) pageSize = true) :
    sliceFits part pageSize = true := by
  have hsub : part.Sublist (left ++ part ++ right) :=
    (sublist_append_right left part).trans (sublist_append_left _ right)
  have hlcp := lcpLen_le_of_sublist hasc hsub hne
  have hasc' : Ascending part := List.Pairwise.sublist hsub hasc
  have hq : ∀ r ∈ part, lcpLen part ≤ r.1.length := by
    intro r hr
    have hlen := (prefix_of_mem hasc' hne hr).length_le
    have hle : lcpLen part ≤ (part.head hne).1.length := by
      rw [lcpLen_eq part hne]
      exact (sharedPrefix_starts _ _).2
    rwa [length_take, Nat.min_eq_left hle] at hlen
  have hstripped := strippedBytes_le hlcp hne hq
  rw [sliceFits_eq] at hfits ⊢
  have hfits := of_decide_eq_true hfits
  refine decide_eq_true ?_
  rw [strippedBytes_append, strippedBytes_append, length_append, length_append] at hfits
  omega

/-! ## §2. The walk -/

section Walk

variable {fits : Nat → Bool × Bool} {total : Nat}

/-- Both halves have a record, and both fit. -/
def LegalCut (fits : Nat → Bool × Bool) (total i : Nat) : Prop :=
  1 ≤ i ∧ i < total ∧ (fits i).1 = true ∧ (fits i).2 = true

/-- **A walk that can end ends at a legal cut.**  Where the left half is too large
    every legal cut lies left, where the right half is it lies right, so each turn
    comes closer to it. -/
theorem splitPointFrom_legal {j : Nat} (hj : LegalCut fits total j)
    (hleft : ∀ a b, 1 ≤ a → a ≤ b → b < total → (fits b).1 = true → (fits a).1 = true)
    (hright : ∀ a b, 1 ≤ a → a ≤ b → b < total → (fits a).2 = true → (fits b).2 = true)
    (turns : Nat) : ∀ i, max (min i (total - 1)) 1 + 1 ≤ j + turns → j + 1 ≤ max (min i (total - 1)) 1 + turns →
      ∃ k, splitPointFrom fits total turns i = some k ∧ LegalCut fits total k := by
  obtain ⟨hj1, hjt, hjl, hjr⟩ := hj
  induction turns with
  | zero =>
    intro i h1 h2
    omega
  | succ turns ih =>
    intro i h1 h2
    unfold splitPointFrom
    generalize hc : max (min i (total - 1)) 1 = c at h1 h2
    have hc1 : 1 ≤ c := by omega
    have hct : c < total := by omega
    dsimp only
    by_cases hl : (fits c).1 = true
    · by_cases hr : (fits c).2 = true
      · rw [if_pos (by rw [hl, hr]; rfl)]
        exact ⟨c, rfl, hc1, hct, hl, hr⟩
      · -- the right half is too large: the legal cut is further right
        have hlt : c < j := by
          by_contra hge
          exact hr (hright j c hj1 (Nat.le_of_not_lt hge) hct hjr)
        have hr' : (fits c).2 = false := Bool.eq_false_iff.mpr hr
        have hmore : c < total - 1 := by omega
        rw [hl, hr', if_neg (by decide), if_neg (by simp), if_pos (by simpa using hmore)]
        refine ih (c + 1) ?_ ?_ <;> omega
    · -- the left half is too large: the legal cut is further left
      have hlt : j < c := by
        by_contra hge
        exact hl (hleft c j hc1 (Nat.le_of_not_lt hge) hjt hjl)
      have hl' : (fits c).1 = false := Bool.eq_false_iff.mpr hl
      have hmore : 1 < c := by omega
      rw [hl', if_neg (by simp), if_pos (by simpa using hmore)]
      refine ih (c - 1) ?_ ?_ <;> omega

/-- **Without a legal cut the walk never ends**, if one record at either end fits. -/
theorem splitPointFrom_none (htotal : 2 ≤ total) (hnone : ∀ i, ¬ LegalCut fits total i)
    (hfirst : (fits 1).1 = true) (hlast : (fits (total - 1)).2 = true) (turns : Nat) :
    ∀ i, splitPointFrom fits total turns i = none := by
  induction turns with
  | zero => exact fun _ => rfl
  | succ turns ih =>
    intro i
    unfold splitPointFrom
    generalize hc : max (min i (total - 1)) 1 = c
    have hc1 : 1 ≤ c := by omega
    have hct : c < total := by omega
    dsimp only
    by_cases hl : (fits c).1 = true
    · have hr : (fits c).2 = false := Bool.eq_false_iff.mpr fun hr => hnone c ⟨hc1, hct, hl, hr⟩
      have hmore : c < total - 1 := by
        have hne : c ≠ total - 1 := by
          rintro rfl
          rw [hlast] at hr
          cases hr
        omega
      rw [hl, hr, if_neg (by decide), if_neg (by simp), if_pos (by simpa using hmore)]
      exact ih _
    · have hl' : (fits c).1 = false := Bool.eq_false_iff.mpr hl
      have hmore : 1 < c := by
        have hne : c ≠ 1 := by
          rintro rfl
          exact hl hfirst
        omega
      rw [hl', if_neg (by simp), if_pos (by simpa using hmore)]
      exact ih _

end Walk

/-! ## §3. The leaf that a record has overfilled -/

/-- What `split_leaf` asks at a cut. -/
def cutFits (records : Records) (pageSize i : Nat) : Bool × Bool :=
  (sliceFits (records.take i) pageSize, sliceFits (records.drop i) pageSize)

/-- Where the walk of `split_leaf` starts. -/
def splitStart (total : Nat) (monotonic : Bool) : Nat :=
  if monotonic then max (min (total * 9 / 10) (total - 1)) 1 else total / 2

section Overfull

variable {records : Records}

theorem cutFits_left (hasc : Ascending records) {a b : Nat} (ha : 1 ≤ a) (hab : a ≤ b)
    (hb : b < records.length) (h : (cutFits records pageSize b).1 = true) :
    (cutFits records pageSize a).1 = true := by
  have hsplit : records.take b = [] ++ records.take a ++ (records.take b).drop a := by
    rw [nil_append, ← Nat.min_eq_left hab, ← take_take, Nat.min_eq_left hab, take_append_drop]
  refine @sliceFits_part pageSize [] (records.take a) ((records.take b).drop a) ?_ ?_ ?_
  · rw [← hsplit]
    exact List.Pairwise.sublist (take_sublist _ _) hasc
  · intro hnil
    have := congrArg List.length hnil
    rw [length_take, length_nil] at this
    omega
  · rw [← hsplit]
    exact h

theorem cutFits_right (hasc : Ascending records) {a b : Nat} (hab : a ≤ b)
    (hb : b < records.length) (h : (cutFits records pageSize a).2 = true) :
    (cutFits records pageSize b).2 = true := by
  have hdrop : (records.drop a).drop (b - a) = records.drop b := by
    rw [drop_drop]
    congr 1
    omega
  have hsplit : records.drop a = (records.drop a).take (b - a) ++ records.drop b ++ [] := by
    rw [append_nil, ← hdrop, take_append_drop]
  refine @sliceFits_part pageSize ((records.drop a).take (b - a)) (records.drop b) [] ?_ ?_ ?_
  · rw [← hsplit]
    exact List.Pairwise.sublist (drop_sublist _ _) hasc
  · intro hnil
    have := congrArg List.length hnil
    rw [length_drop, length_nil] at this
    omega
  · rw [← hsplit]
    exact h

/-- **`split_leaf` finds a legal cut if there is one.** -/
theorem splitLeaf_legal {leaf : Leaf} {j : Nat} (hasc : Ascending leaf.records)
    (hj : LegalCut (cutFits leaf.records pageSize) leaf.records.length j) (monotonic : Bool) :
    ∃ l r sep, splitLeaf leaf monotonic pageSize = some (l, r, sep) ∧ l.records ≠ []
      ∧ r.records ≠ [] ∧ sliceFits l.records pageSize = true
      ∧ sliceFits r.records pageSize = true ∧ l.records ++ r.records = leaf.records
      ∧ r.records.head?.map Prod.fst = some sep := by
  have hbounds : j < leaf.records.length := hj.2.1
  have hj1 := hj.1
  obtain ⟨k, hk, hk1, hkt, hkl, hkr⟩ := splitPointFrom_legal hj
    (fun a b ha hab hb => cutFits_left hasc ha hab hb) (fun a b _ hab hb => cutFits_right hasc hab hb)
    (leaf.records.length + 1) (splitStart leaf.records.length monotonic) (by omega) (by omega)
  have hpoint : splitPoint leaf.records monotonic pageSize = some k := hk
  have hne : leaf.records.drop k ≠ [] := by
    intro hnil
    have := congrArg List.length hnil
    rw [length_drop, length_nil] at this
    omega
  obtain ⟨r, rest, hdrop⟩ := exists_cons_of_ne_nil hne
  refine ⟨{ leaf with rightSibling := 0, records := leaf.records.take k },
    { leftSibling := 0, rightSibling := 0, records := leaf.records.drop k }, r.1, ?_, ?_, hne, hkl,
    hkr, take_append_drop _ _, ?_⟩
  · unfold splitLeaf
    rw [hpoint]
    show (leaf.records.drop k).head?.bind _ = _
    rw [hdrop]
    rfl
  · intro hnil
    have := congrArg List.length hnil
    rw [length_take, length_nil] at this
    omega
  · show (leaf.records.drop k).head?.map Prod.fst = _
    rw [hdrop]
    rfl

end Overfull

/-- The records of a leaf up to a key. -/
def upToKey (key : Bytes) (records : Records) : Records := records.filter fun r => decide (r.1 ≤ key)

/-- The records of a leaf from a key on. -/
def fromKey (key : Bytes) (records : Records) : Records := records.filter fun r => decide (key ≤ r.1)

/-- The stored form of a value, given where its overflow chain would start. -/
def storedValue (value : Bytes) (root : PageId) (pageSize : Nat) : LeafValue :=
  if value.length > inlineValueThreshold pageSize then .overflow value.length root else .inline value

theorem storedValue_encodedSize (value : Bytes) (root : PageId) :
    (storedValue value root pageSize).encodedSize
      = storedLeafValueEncodedSize value.length pageSize := by
  unfold storedValue storedLeafValueEncodedSize
  split_ifs with hbig
  · rfl
  · rfl

/-- A leaf around the record that goes into it: what stands left and right of the
    record fits, and so does the record alone. -/
structure Overfilled (leaf : Leaf) (key : Bytes) (stored : LeafValue) (pageSize : Nat)
    (left right : Records) : Prop where
  records : (leaf.upsert key stored).1.records = left ++ (key, stored) :: right
  ascending : Ascending (left ++ (key, stored) :: right)
  left_fits : left ≠ [] → sliceFits left pageSize = true
  right_fits : right ≠ [] → sliceFits right pageSize = true
  alone : sliceFits [(key, stored)] pageSize = true
  up_to : upToKey key (left ++ (key, stored) :: right) = left ++ [(key, stored)]
  beyond : fromKey key (left ++ (key, stored) :: right) = (key, stored) :: right

theorem exists_overfilled {leaf : Leaf} {key : Bytes} {stored : LeafValue}
    (hasc : Ascending leaf.records) (hfits : leaf.fits pageSize = true)
    (hone : singleRecordFitsEncoded key.length stored.encodedSize pageSize = true) :
    ∃ left right, Overfilled leaf key stored pageSize left right := by
  obtain ⟨left, old, right, hcut, hrecords⟩ := exists_around key hasc
  have hnew : (leaf.upsert key stored).1.records = left ++ (key, stored) :: right := by
    show upsertSorted key stored leaf.records = _
    rw [hrecords, upsertSorted_around hcut]
    exact append_assoc left [(key, stored)] right
  have holdasc := hasc
  rw [hrecords] at holdasc
  have hleft : Ascending left := (pairwise_append.mp (pairwise_append.mp holdasc).1).1
  have hright : Ascending right := (pairwise_append.mp holdasc).2.1
  have hfits : sliceFits (around left key old right) pageSize = true := hrecords ▸ hfits
  refine ⟨left, right, hnew, ?_, fun hne => ?_, fun hne => ?_, sliceFits_singleton hone, ?_, ?_⟩
  · refine pairwise_append.mpr ⟨hleft, pairwise_cons.mpr ⟨hcut.gt, hright⟩, ?_⟩
    intro a ha b hb
    rcases mem_cons.mp hb with rfl | hb
    · exact hcut.lt a ha
    · exact lt_trans (hcut.lt a ha) (hcut.gt b hb)
  · have hshape : around left key old right
        = [] ++ left ++ ((old.map fun v => (key, v)).toList ++ right) := by
      unfold around
      rw [nil_append, append_assoc]
    rw [hshape] at holdasc hfits
    exact sliceFits_part holdasc hne hfits
  · have hshape : around left key old right
        = (left ++ (old.map fun v => (key, v)).toList) ++ right ++ [] := by
      unfold around
      rw [append_nil]
    rw [hshape] at holdasc hfits
    exact sliceFits_part holdasc hne hfits
  · unfold upToKey
    have hl : left.filter (fun r => decide (r.1 ≤ key)) = left :=
      filter_eq_self.mpr fun r hr => decide_eq_true (le_of_lt (hcut.lt r hr))
    have hr : right.filter (fun r => decide (r.1 ≤ key)) = [] :=
      filter_eq_nil_iff.mpr fun r hr => by
        rw [decide_eq_true_eq]
        exact not_le.mpr (hcut.gt r hr)
    rw [filter_append, filter_cons, if_pos (decide_eq_true (le_refl key)), hl, hr]
  · unfold fromKey
    have hl : left.filter (fun r => decide (key ≤ r.1)) = [] :=
      filter_eq_nil_iff.mpr fun r hr => by
        rw [decide_eq_true_eq]
        exact not_le.mpr (hcut.lt r hr)
    have hr : right.filter (fun r => decide (key ≤ r.1)) = right :=
      filter_eq_self.mpr fun r hr => decide_eq_true (le_of_lt (hcut.gt r hr))
    rw [filter_append, filter_cons, if_pos (decide_eq_true (le_refl key)), hl, hr, nil_append]

section Cuts

variable {leaf : Leaf} {key : Bytes} {stored : LeafValue} {left right : Records}

theorem cutFits_at (pageSize : Nat) (a b : Records) :
    cutFits (a ++ b) pageSize a.length = (sliceFits a pageSize, sliceFits b pageSize) := by
  unfold cutFits
  rw [take_left, drop_left]

theorem cutFits_behind (pageSize : Nat) (a : Records) (x : Bytes × LeafValue) (b : Records) :
    cutFits (a ++ x :: b) pageSize (a.length + 1)
      = (sliceFits (a ++ [x]) pageSize, sliceFits b pageSize) := by
  have hcut := cutFits_at pageSize (a ++ [x]) b
  rwa [append_assoc, length_append] at hcut

variable (h : Overfilled leaf key stored pageSize left right)

include h

/-- The cut behind the record, or the one before it. -/
theorem Overfilled.legal (hover : sliceFits (left ++ (key, stored) :: right) pageSize = false)
    (hside : sliceFits (left ++ [(key, stored)]) pageSize = true
      ∨ sliceFits ((key, stored) :: right) pageSize = true) :
    ∃ j, LegalCut (cutFits (left ++ (key, stored) :: right) pageSize)
      (left ++ (key, stored) :: right).length j := by
  rcases hside with hside | hside
  · have hne : right ≠ [] := by
      rintro rfl
      rw [hside] at hover
      cases hover
    have hcut := cutFits_behind pageSize left (key, stored) right
    have hpos := length_pos_of_ne_nil hne
    refine ⟨left.length + 1, by omega, ?_, ?_, ?_⟩
    · rw [length_append, length_cons]
      omega
    · exact (congrArg Prod.fst hcut).trans hside
    · exact (congrArg Prod.snd hcut).trans (h.right_fits hne)
  · have hne : left ≠ [] := by
      rintro rfl
      rw [nil_append, hside] at hover
      cases hover
    have hcut := cutFits_at pageSize left ((key, stored) :: right)
    have hpos := length_pos_of_ne_nil hne
    refine ⟨left.length, hpos, ?_, ?_, ?_⟩
    · rw [length_append, length_cons]
      omega
    · exact (congrArg Prod.fst hcut).trans (h.left_fits hne)
    · exact (congrArg Prod.snd hcut).trans hside

variable (hleft : sliceFits (left ++ [(key, stored)]) pageSize = false)
  (hright : sliceFits ((key, stored) :: right) pageSize = false)

include hleft hright

/-- A record that fits with neither side leaves no legal cut. -/
theorem Overfilled.no_cut (i : Nat) :
    ¬ LegalCut (cutFits (left ++ (key, stored) :: right) pageSize)
      (left ++ (key, stored) :: right).length i := by
  rintro ⟨hi1, hit, hl, hr⟩
  by_cases hi : i ≤ left.length
  · -- the record and all to its right are in the right half
    have hat : left.length < (left ++ (key, stored) :: right).length := by
      rw [length_append, length_cons]
      omega
    have hmore := cutFits_right h.ascending hi hat hr
    rw [cutFits_at, hright] at hmore
    cases hmore
  · have hmore := cutFits_left (a := left.length + 1) h.ascending (by omega) (by omega) hit hl
    rw [cutFits_behind, hleft] at hmore
    cases hmore

/-- **A record too wide for both sides is never split off.** -/
theorem Overfilled.never_stops (turns i : Nat) :
    splitPointFrom (cutFits (leaf.upsert key stored).1.records pageSize)
      (leaf.upsert key stored).1.records.length turns i = none := by
  have hne : left ≠ [] := by
    rintro rfl
    rw [nil_append, h.alone] at hleft
    cases hleft
  have hne' : right ≠ [] := by
    rintro rfl
    rw [h.alone] at hright
    cases hright
  have hpos := length_pos_of_ne_nil hne
  have hpos' := length_pos_of_ne_nil hne'
  have hlen : (left ++ (key, stored) :: right).length = left.length + right.length + 1 := by
    rw [length_append, length_cons]
    omega
  rw [h.records]
  refine splitPointFrom_none (by omega) (h.no_cut hleft hright) ?_ ?_ turns i
  · refine cutFits_left (b := left.length) h.ascending (Nat.le_refl 1) hpos (by omega) ?_
    rw [cutFits_at]
    exact h.left_fits hne
  · refine cutFits_right (a := left.length + 1) h.ascending (by omega) (by omega) ?_
    rw [cutFits_behind]
    exact h.right_fits hne'

end Cuts

/-- **`split_leaf` finds a legal split exactly if the new record fits on one side.**  A
    leaf that fits takes an accepted record and no longer fits.  The split ends, both
    halves have records and fit, they are the leaf in order, and the separator is the
    first key on the right, if and only if the record fits into a page with all records
    left of it, or with all records right of it.  Otherwise the walk never ends. -/
theorem split_leaf_is_legal (leaf : Leaf) (key value : Bytes) (root : PageId) (pageSize : Nat)
    (monotonic : Bool) (hasc : Ascending leaf.records) (hfits : leaf.fits pageSize = true)
    (haccepted : (singleRecordFitsEncoded key.length
      (storedLeafValueEncodedSize value.length pageSize) pageSize
        && separatorFits key.length pageSize) = true)
    (hover : (leaf.upsert key (storedValue value root pageSize)).1.fits pageSize = false) :
    let full := (leaf.upsert key (storedValue value root pageSize)).1
    let side := sliceFits (upToKey key full.records) pageSize = true
      ∨ sliceFits (fromKey key full.records) pageSize = true
    ((∃ l r sep, splitLeaf full monotonic pageSize = some (l, r, sep)
        ∧ l.records ≠ [] ∧ r.records ≠ []
        ∧ sliceFits l.records pageSize = true ∧ sliceFits r.records pageSize = true
        ∧ l.records ++ r.records = full.records
        ∧ r.records.head?.map Prod.fst = some sep) ↔ side)
    ∧ (¬ side → ∀ turns, splitPointFrom (cutFits full.records pageSize) full.records.length turns
        (splitStart full.records.length monotonic) = none) := by
  intro full side
  have hone := (Bool.and_eq_true_iff.mp haccepted).1
  rw [← storedValue_encodedSize value root] at hone
  obtain ⟨left, right, h⟩ := exists_overfilled hasc hfits hone
  have hside : side ↔ sliceFits (left ++ [(key, storedValue value root pageSize)]) pageSize = true
      ∨ sliceFits ((key, storedValue value root pageSize) :: right) pageSize = true := by
    unfold side full
    rw [h.records, h.up_to, h.beyond]
  have hnever : ¬ side → ∀ turns, splitPointFrom (cutFits full.records pageSize)
      full.records.length turns (splitStart full.records.length monotonic) = none := by
    rw [hside, not_or, Bool.not_eq_true, Bool.not_eq_true]
    exact fun hno turns => h.never_stops hno.1 hno.2 turns _
  refine ⟨⟨?_, fun hyes => ?_⟩, hnever⟩
  · rintro ⟨l, r, sep, hsplit, -⟩
    by_contra hno
    have hpoint : splitPoint full.records monotonic pageSize = none := hnever hno _
    unfold splitLeaf at hsplit
    rw [hpoint] at hsplit
    cases hsplit
  · have hover : sliceFits (left ++ (key, storedValue value root pageSize) :: right) pageSize
        = false := h.records ▸ hover
    obtain ⟨j, hj⟩ := h.legal hover (hside.mp hyes)
    rw [← h.records] at hj
    refine splitLeaf_legal ?_ hj monotonic
    rw [h.records]
    exact h.ascending

/-- A key of a given length that starts with a given byte. -/
def wideKey (first : UInt8) (n : Nat) : Bytes := first :: List.replicate n 0

@[simp] theorem wideKey_length (first : UInt8) (n : Nat) : (wideKey first n).length = n + 1 := by
  simp [wideKey]

theorem sharedPrefix_wideKey (hab : a ≠ b) (m n : Nat) :
    sharedPrefix (wideKey a m) (wideKey b n) = 0 := by
  simp [sharedPrefix, wideKey, hab]

/-- A record without a value. -/
def wideRecord (first : UInt8) (n : Nat) : Bytes × LeafValue := (wideKey first n, .inline [])

theorem sliceFits_pair (hab : a ≠ b) (m n : Nat) :
    sliceFits [wideRecord a m, wideRecord b n] pageSize
      = decide (38 + m + n ≤ bodyCapacity pageSize) := by
  have hlcp : lcpLen [wideRecord a m, wideRecord b n] = 0 := sharedPrefix_wideKey hab m n
  rw [sliceFits_eq, hlcp, decide_eq_decide]
  simp only [strippedBytes, wideRecord, LeafValue.encodedSize, HEADER_LEN, map_cons, map_nil,
    sum_cons, sum_nil, length_cons, length_nil, wideKey_length]
  omega

theorem sliceFits_triple {c : UInt8} (hac : a ≠ c) (m n k : Nat) :
    sliceFits [wideRecord a m, wideRecord b n, wideRecord c k] pageSize
      = decide (45 + m + n + k ≤ bodyCapacity pageSize) := by
  have hlcp : lcpLen [wideRecord a m, wideRecord b n, wideRecord c k] = 0 :=
    sharedPrefix_wideKey hac m k
  rw [sliceFits_eq, hlcp, decide_eq_decide]
  simp only [strippedBytes, wideRecord, LeafValue.encodedSize, HEADER_LEN, map_cons, map_nil,
    sum_cons, sum_nil, length_cons, length_nil, wideKey_length]
  omega

/-- Two keys of three eighths of a page each. -/
def twoWide : Leaf where
  leftSibling := 0
  rightSibling := 0
  records := [wideRecord 1 1500, wideRecord 3 1500]

theorem wideKey_lt (hab : a < b) (m n : Nat) : wideKey a m < wideKey b n :=
  List.Lex.rel hab

theorem twoWide_ascending : Ascending twoWide.records :=
  pairwise_pair.mpr (wideKey_lt (by decide) _ _)

theorem twoWide_fits : twoWide.fits 4096 = true := sliceFits_pair (by decide) 1500 1500

theorem twoWide_around (n : Nat) : wideKey 1 1500 < wideKey 2 n ∧ wideKey 2 n < wideKey 3 1500 :=
  ⟨wideKey_lt (by decide) _ _, wideKey_lt (by decide) _ _⟩

theorem twoWide_upsert (n : Nat) : (twoWide.upsert (wideKey 2 n) (.inline [])).1.records
    = [wideRecord 1 1500, wideRecord 2 n, wideRecord 3 1500] := by
  obtain ⟨h12, h23⟩ := twoWide_around n
  show upsertSorted (wideKey 2 n) (LeafValue.inline []) twoWide.records = _
  unfold upsertSorted binarySearch twoWide
  simp [wideRecord, h12, not_lt_of_gt h23, ne_of_gt h23]

theorem twoWide_upTo (n : Nat) :
    upToKey (wideKey 2 n) (twoWide.upsert (wideKey 2 n) (.inline [])).1.records
      = [wideRecord 1 1500, wideRecord 2 n] := by
  obtain ⟨h12, h23⟩ := twoWide_around n
  rw [twoWide_upsert]
  simp [upToKey, wideRecord, le_of_lt h12, not_le_of_gt h23]

theorem twoWide_from (n : Nat) :
    fromKey (wideKey 2 n) (twoWide.upsert (wideKey 2 n) (.inline [])).1.records
      = [wideRecord 2 n, wideRecord 3 1500] := by
  obtain ⟨h12, h23⟩ := twoWide_around n
  rw [twoWide_upsert]
  simp [fromKey, wideRecord, le_of_lt h23, not_le_of_gt h12]

theorem accepted_wideKey {first : UInt8} {n : Nat} (h : n + 37 ≤ 4056) :
    (singleRecordFitsEncoded (wideKey first n).length (storedLeafValueEncodedSize 0 4096) 4096
      && separatorFits (wideKey first n).length 4096) = true := by
  have hkey : n + 1 ≤ U16_MAX := by
    unfold U16_MAX
    omega
  have hrecord : HEADER_LEN + (n + 1) + 2 + 2 + storedLeafValueEncodedSize 0 4096 ≤ bodyCapacity 4096 := by
    show 24 + (n + 1) + 2 + 2 + 2 ≤ 4056
    omega
  have hseparator : HEADER_LEN + ((n + 1) + SEPARATOR_RECORD_OVERHEAD + SLOT_DIRECTORY_ENTRY_SIZE)
      ≤ bodyCapacity 4096 := by
    show 24 + ((n + 1) + 10 + 2) ≤ 4056
    omega
  unfold singleRecordFitsEncoded separatorFits
  rw [wideKey_length, decide_eq_true hkey, decide_eq_true hrecord, decide_eq_true hseparator]
  rfl

/-- A third key of the same size goes in between. -/
theorem split_leaf_is_legal_three_wide :
    ∃ l r sep, splitLeaf (twoWide.upsert (wideKey 2 1500) (.inline [])).1 false 4096
      = some (l, r, sep) ∧ sliceFits l.records 4096 = true ∧ sliceFits r.records 4096 = true := by
  have hover : (twoWide.upsert (wideKey 2 1500) (.inline [])).1.fits 4096 = false := by
    unfold Leaf.fits
    rw [twoWide_upsert]
    exact sliceFits_triple (by decide) 1500 1500 1500
  have hside : sliceFits (upToKey (wideKey 2 1500)
      (twoWide.upsert (wideKey 2 1500) (.inline [])).1.records) 4096 = true := by
    rw [twoWide_upTo]
    exact sliceFits_pair (by decide) 1500 1500
  obtain ⟨l, r, sep, hsplit, -, -, hl, hr, -, -⟩ := (split_leaf_is_legal twoWide (wideKey 2 1500) [] 0
    4096 false twoWide_ascending twoWide_fits (accepted_wideKey (by decide)) hover).1.mpr (Or.inl hside)
  exact ⟨l, r, sep, hsplit, hl, hr⟩

/-- **A key of almost a page between two others loops for ever**: the walk goes
    back and forth between the two cuts. -/
theorem split_leaf_loops_on_wide_key : Ascending twoWide.records ∧ twoWide.fits 4096 = true
      ∧ (singleRecordFitsEncoded (wideKey 2 3900).length (storedLeafValueEncodedSize 0 4096) 4096
        && separatorFits (wideKey 2 3900).length 4096) = true
      ∧ (twoWide.upsert (wideKey 2 3900) (.inline [])).1.fits 4096 = false
      ∧ ∀ monotonic,
        splitLeaf (twoWide.upsert (wideKey 2 3900) (.inline [])).1 monotonic 4096 = none
        ∧ ∀ turns, splitPointFrom
            (cutFits (twoWide.upsert (wideKey 2 3900) (.inline [])).1.records 4096) 3 turns
            (splitStart 3 monotonic) = none := by
  have haccepted := @accepted_wideKey 2 3900 (by decide)
  have hsingle : singleRecordFitsEncoded (wideKey 2 3900).length
      (LeafValue.inline []).encodedSize 4096 = true := (Bool.and_eq_true_iff.mp haccepted).1
  obtain ⟨left, right, h⟩ := exists_overfilled twoWide_ascending twoWide_fits hsingle
  have hleft : sliceFits (left ++ [(wideKey 2 3900, .inline [])]) 4096 = false := by
    rw [← h.up_to, ← h.records, twoWide_upTo]
    exact sliceFits_pair (by decide) 1500 3900
  have hright : sliceFits ((wideKey 2 3900, .inline []) :: right) 4096 = false := by
    rw [← h.beyond, ← h.records, twoWide_from]
    exact sliceFits_pair (by decide) 3900 1500
  have hnever := h.never_stops hleft hright
  have hlen : (twoWide.upsert (wideKey 2 3900) (.inline [])).1.records.length = 3 := by
    rw [twoWide_upsert]
    rfl
  rw [hlen] at hnever
  have hpoint : ∀ monotonic,
      splitPoint (twoWide.upsert (wideKey 2 3900) (.inline [])).1.records monotonic 4096 = none := by
    intro monotonic
    unfold splitPoint
    rw [hlen]
    exact hnever 4 _
  refine ⟨twoWide_ascending, twoWide_fits, haccepted, ?_,
    fun monotonic => ⟨?_, fun turns => hnever turns _⟩⟩
  · unfold Leaf.fits
    rw [twoWide_upsert]
    exact sliceFits_triple (by decide) 1500 3900 1500
  · unfold splitLeaf
    rw [hpoint]
    rfl

end Pagedb
