/-
  Pagedb.Lib.Slotted — pages with a slot directory.

  The records of a page are laid one before the other from its end down; behind
  a fixed front the directory has the offset of each, in two bytes.  Between the
  two is a gap of zeros.

    * `slotted_snoc`   — the two writes that add a record;
    * `slotted_slot`, `slotted_record` — what the directory leads to;
    * `slotted_patch`  — a write inside a record changes that record only.
-/
import Pagedb.Lib.Bytes
import Pagedb.Lib.Layout

namespace Pagedb.Lib

open List

/-! ## §1. The layout -/

/-- Where the records begin that are laid one before the other down from `tail`. -/
def slotsFrom {α : Type} : Nat → List (List α) → List Nat
  | _, [] => []
  | tail, r :: records => (tail - r.length) :: slotsFrom (tail - r.length) records

/-- The directory of the records. -/
def directory (tail : Nat) (records : List (List UInt8)) : List UInt8 :=
  (slotsFrom tail records).flatMap (leBytes 2)

/-- Front, directory and records need no more than `cap` bytes. -/
def SlottedFits (cap : Nat) (front : List UInt8) (records : List (List UInt8)) : Prop :=
  front.length + 2 * records.length + records.flatten.length ≤ cap

/-- A page of `cap` bytes with a front and records. -/
def slotted (cap : Nat) (front : List UInt8) (records : List (List UInt8)) : List UInt8 :=
  front ++ (directory cap records
    ++ (List.replicate (cap - (front.length + 2 * records.length + records.flatten.length)) 0
      ++ records.reverse.flatten))

section Slots

variable {α : Type} {tail : Nat} {records done rest : List (List α)}

theorem slotsFrom_append (tail : Nat) (done rest : List (List α)) :
    slotsFrom tail (done ++ rest) = slotsFrom tail done ++ slotsFrom (tail - done.flatten.length) rest := by
  induction done generalizing tail with
  | nil => rfl
  | cons r done ih =>
    show (tail - r.length) :: slotsFrom (tail - r.length) (done ++ rest) = _
    rw [ih, flatten_cons, length_append, Nat.sub_sub]
    rfl

@[simp] theorem slotsFrom_length (tail : Nat) (records : List (List α)) :
    (slotsFrom tail records).length = records.length := by
  induction records generalizing tail with
  | nil => rfl
  | cons r records ih =>
    show (slotsFrom (tail - r.length) records).length + 1 = records.length + 1
    rw [ih]

end Slots

variable {cap : Nat} {front : List UInt8} {records done rest : List (List UInt8)} {r : List UInt8}

@[simp] theorem directory_length (tail : Nat) (records : List (List UInt8)) :
    (directory tail records).length = 2 * records.length := by
  unfold directory
  rw [length_flatMap]
  simp [Nat.mul_comm]

theorem directory_append (tail : Nat) (done rest : List (List UInt8)) :
    directory tail (done ++ rest)
      = directory tail done ++ directory (tail - done.flatten.length) rest := by
  unfold directory
  rw [slotsFrom_append, flatMap_append]

theorem directory_cons (tail : Nat) (r : List UInt8) (rest : List (List UInt8)) :
    directory tail (r :: rest)
      = leBytes 2 (tail - r.length) ++ directory (tail - r.length) rest := rfl

@[simp] theorem reverse_flatten_length (records : List (List UInt8)) :
    records.reverse.flatten.length = records.flatten.length := by
  rw [length_flatten, length_flatten, map_reverse, sum_reverse]

theorem slotted_length (h : SlottedFits cap front records) :
    (slotted cap front records).length = cap := by
  unfold SlottedFits at h
  unfold slotted
  rw [length_append, length_append, length_append, directory_length,
    length_replicate, reverse_flatten_length]
  omega

/-! ## §2. Writing -/

/-- **The two writes that add a record.** -/
theorem slotted_snoc (h : SlottedFits cap front (done ++ [r])) :
    writeAt 0 (writeAt 0 (slotted cap front done) (cap - done.flatten.length - r.length) r)
        (front.length + 2 * done.length) (leBytes 2 (cap - done.flatten.length - r.length))
      = slotted cap front (done ++ [r]) := by
  unfold SlottedFits at h
  rw [length_append, flatten_append, length_append, length_singleton, flatten_singleton] at h
  -- the gap before: two bytes for the slot, the gap after, and the place of the record
  have hgap : List.replicate (cap - (front.length + 2 * done.length + done.flatten.length)) (0 : UInt8)
      = List.replicate 2 0 ++ (List.replicate
          (cap - (front.length + 2 * (done.length + 1) + (done.flatten.length + r.length))) 0
        ++ List.replicate r.length 0) := by
    rw [replicate_append_replicate, replicate_append_replicate]
    congr 1
    omega
  have hrecord : writeAt 0 (slotted cap front done) (cap - done.flatten.length - r.length) r
      = (front ++ directory cap done) ++ (List.replicate 2 0 ++ (List.replicate
          (cap - (front.length + 2 * (done.length + 1) + (done.flatten.length + r.length))) 0
        ++ (r ++ done.reverse.flatten))) := by
    unfold slotted
    rw [hgap]
    simp only [← append_assoc]
    rw [append_assoc _ (List.replicate r.length 0), writeAt_mid 0 ?_ (by simp)]
    · simp only [append_assoc]
    · simp only [length_append, directory_length, length_replicate]
      omega
  rw [hrecord, writeAt_mid 0 (by simp) (by simp)]
  unfold slotted
  rw [directory_append, reverse_append, flatten_append, flatten_append]
  simp [directory, slotsFrom]

/-- The page cut before a record.  What stands before it depends on its size only. -/
theorem slotted_cut (h : SlottedFits cap front (done ++ r :: rest)) :
    ∃ before, before.length = cap - done.flatten.length - r.length ∧ ∀ r', r'.length = r.length →
        slotted cap front (done ++ r' :: rest) = before ++ (r' ++ done.reverse.flatten) := by
  unfold SlottedFits at h
  refine ⟨front ++ (directory cap (done ++ r :: rest) ++ (List.replicate (cap - (front.length
    + 2 * (done ++ r :: rest).length + (done ++ r :: rest).flatten.length)) 0
    ++ rest.reverse.flatten)), ?_, fun r' hr' => ?_⟩
  · simp only [flatten_append, flatten_cons, length_append, length_cons] at h
    simp only [length_append, directory_length, length_replicate, length_cons,
      reverse_flatten_length, flatten_append, flatten_cons]
    omega
  · have hsum : (done ++ r' :: rest).flatten.length = (done ++ r :: rest).flatten.length := by
      simp [hr']
    have hcount : (done ++ r' :: rest).length = (done ++ r :: rest).length := by
      simp
    unfold slotted
    rw [hsum, hcount, directory_append, directory_append, directory_cons, directory_cons, hr']
    simp [append_assoc]

/-- **A write inside a record changes that record only.** -/
theorem slotted_patch {a x y b : List UInt8} (hxy : y.length = x.length)
    (h : SlottedFits cap front (done ++ (a ++ (x ++ b)) :: rest)) :
    writeAt 0 (slotted cap front (done ++ (a ++ (x ++ b)) :: rest))
        (cap - done.flatten.length - (a ++ (x ++ b)).length + a.length) y
      = slotted cap front (done ++ (a ++ (y ++ b)) :: rest) := by
  obtain ⟨before, hlen, hcut⟩ := slotted_cut h
  have hsame : (a ++ (y ++ b)).length = (a ++ (x ++ b)).length := by
    simp [hxy]
  rw [hcut _ rfl, hcut _ hsame, ← hlen]
  simp only [append_assoc]
  rw [← append_assoc before, ← append_assoc before]
  exact writeAt_mid 0 (by simp) hxy.symm

/-! ## §3. Reading -/

theorem slotted_slot (cap : Nat) (front : List UInt8) (done rest : List (List UInt8))
    (r : List UInt8) :
    HasAt (slotted cap front (done ++ r :: rest)) (front.length + 2 * done.length)
      (leBytes 2 (cap - done.flatten.length - r.length)) := by
  unfold slotted
  rw [directory_append, directory_cons]
  simp only [append_assoc]
  rw [← append_assoc front]
  exact hasAt_mid (by simp)

theorem slotted_record (h : SlottedFits cap front (done ++ r :: rest)) :
    HasAt (slotted cap front (done ++ r :: rest)) (cap - done.flatten.length - r.length) r := by
  obtain ⟨before, hlen, hcut⟩ := slotted_cut h
  rw [hcut r rfl]
  exact hasAt_mid hlen

end Pagedb.Lib
