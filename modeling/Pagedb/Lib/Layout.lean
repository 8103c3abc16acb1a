/-
  Pagedb.Lib.Layout — byte strings cut at fixed places.

    * `fields`   — a record cut into pieces of given widths, and back;
    * `slice`    — the piece of a file at an offset;
    * `writeAt`  — a file with bytes written at an offset;
    * `HasAt`    — a piece a buffer has at an offset, and the pieces of it;
    * `slice_block` — a file made of blocks of one size, read block by block.
-/
import Mathlib

namespace Pagedb.Lib

open List

variable {α : Type}

/-! ## Records -/

/-- A record cut into pieces of the given widths, from its start on. -/
def fields : List Nat → List α → List (List α)
  | [], _ => []
  | w :: ws, xs => xs.take w :: fields ws (xs.drop w)

theorem fields_flatten (pieces : List (List α)) (rest : List α) :
    fields (pieces.map List.length) (pieces.flatten ++ rest) = pieces := by
  induction pieces with
  | nil => rfl
  | cons piece pieces ih =>
    show (piece ++ pieces.flatten ++ rest).take piece.length
      :: fields (pieces.map List.length) ((piece ++ pieces.flatten ++ rest).drop piece.length) = _
    rw [append_assoc, take_left, drop_left, ih]

theorem fields_of_widths {widths : List Nat} {pieces : List (List α)} (rest : List α)
    (h : pieces.map List.length = widths) : fields widths (pieces.flatten ++ rest) = pieces := by
  rw [← h]
  exact fields_flatten pieces rest

theorem flatten_length_of_widths {widths : List Nat} {pieces : List (List α)}
    (h : pieces.map List.length = widths) : pieces.flatten.length = widths.sum := by
  rw [length_flatten, h]

/-! ## Files -/

/-- The `len` elements from offset `off` on. -/
def slice (xs : List α) (off len : Nat) : List α := (xs.drop off).take len

/-- The file with `data` at `off`; a gap is filled with `zero`. -/
def writeAt (zero : α) (xs : List α) (off : Nat) (data : List α) : List α :=
  xs.take off ++ List.replicate (off - xs.length) zero ++ data ++ xs.drop (off + data.length)

theorem writeAt_end (zero : α) (xs data : List α) :
    writeAt zero xs xs.length data = xs ++ data := by
  unfold writeAt
  rw [take_length, Nat.sub_self, drop_of_length_le (by omega)]
  simp

theorem slice_append_right (xs ys : List α) (off len : Nat) :
    slice (xs ++ ys) (xs.length + off) len = slice ys off len := by
  unfold slice
  rw [drop_append]
  rw [drop_of_length_le (by omega), Nat.add_sub_cancel_left, nil_append]

variable {xs ys a b : List α} {off len : Nat}

theorem slice_append_left (h : off + len ≤ xs.length) :
    slice (xs ++ ys) off len = slice xs off len := by
  unfold slice
  rw [drop_append_of_le_length (by omega), take_append_of_le_length]
  rw [length_drop]
  omega

theorem slice_mid {xs ys zs : List α} {off len : Nat} (hx : xs.length = off) (hy : ys.length = len) :
    slice (xs ++ (ys ++ zs)) off len = ys := by
  unfold slice
  rw [← hx, drop_left, ← hy, take_left]

theorem slice_slice {o l : Nat} (h : o + l ≤ len) :
    slice (slice xs off len) o l = slice xs (off + o) l := by
  unfold slice
  rw [drop_take, drop_drop, take_take, Nat.min_eq_left (by omega)]

theorem exists_cut (h : off + len ≤ xs.length) :
    ∃ front mid back, xs = front ++ (mid ++ back) ∧ front.length = off ∧ mid.length = len := by
  refine ⟨xs.take off, (xs.drop off).take len, (xs.drop off).drop len, ?_, ?_, ?_⟩
  · rw [take_append_drop, take_append_drop]
  · rw [length_take]
    omega
  · rw [length_take, length_drop]
    omega

theorem writeAt_mid (zero : α) {zs data : List α} (hx : xs.length = off)
    (hy : ys.length = data.length) :
    writeAt zero (xs ++ (ys ++ zs)) off data = xs ++ (data ++ zs) := by
  unfold writeAt
  have hlong : off - (xs ++ (ys ++ zs)).length = 0 := by
    rw [length_append]
    omega
  rw [hlong, ← hx, take_left, ← hy, ← drop_drop, drop_left, drop_left]
  simp

theorem writeAt_length (zero : α) {data : List α} (h : off + data.length ≤ xs.length) :
    (writeAt zero xs off data).length = xs.length := by
  obtain ⟨front, mid, back, rfl, hfront, hmid⟩ := exists_cut h
  rw [writeAt_mid zero hfront hmid]
  simp [hmid]

/-- Two writes, one behind the other, are one. -/
theorem writeAt_writeAt (zero : α) (h : off + (a ++ b).length ≤ xs.length) :
    writeAt zero (writeAt zero xs off a) (off + a.length) b = writeAt zero xs off (a ++ b) := by
  obtain ⟨front, mid, back, rfl, hfront, hmid⟩ := exists_cut h
  rw [length_append] at hmid
  obtain ⟨m, n, rest, rfl, hm, hn⟩ := exists_cut (Nat.le_of_eq hmid.symm)
  obtain rfl : rest = [] := by
    rw [length_append, length_append] at hmid
    exact eq_nil_of_length_eq_zero (by omega)
  rw [append_nil, append_assoc m, writeAt_mid zero hfront hm, ← append_assoc front,
    writeAt_mid zero (by rw [length_append, hfront]) hn, ← append_assoc m,
    writeAt_mid zero hfront (by rw [length_append, length_append, hm, hn])]
  simp only [append_assoc]

/-- The buffer has `piece` at `off`. -/
structure HasAt (xs : List α) (off : Nat) (piece : List α) : Prop where
  inside : off + piece.length ≤ xs.length
  eq : slice xs off piece.length = piece

theorem hasAt_mid {piece : List α} (h : xs.length = off) :
    HasAt (xs ++ (piece ++ ys)) off piece where
  inside := by
    simp only [length_append]
    omega
  eq := slice_mid h rfl

theorem HasAt.left (h : HasAt xs off (a ++ b)) : HasAt xs off a where
  inside := by
    have := h.inside
    rw [length_append] at this
    omega
  eq := by
    have hsub : slice (slice xs off (a ++ b).length) 0 a.length = slice xs (off + 0) a.length :=
      slice_slice (by simp)
    rw [h.eq, Nat.add_zero] at hsub
    rw [← hsub]
    unfold slice
    rw [drop_zero, take_left]

theorem HasAt.right (h : HasAt xs off (a ++ b)) : HasAt xs (off + a.length) b where
  inside := by
    have := h.inside
    rw [length_append] at this
    omega
  eq := by
    have hsub : slice (slice xs off (a ++ b).length) a.length b.length
        = slice xs (off + a.length) b.length := slice_slice (by simp)
    rw [h.eq] at hsub
    rw [← hsub]
    unfold slice
    rw [drop_left, take_length]

theorem flatten_length_of_blocks {n : Nat} {blocks : List (List α)}
    (h : ∀ b ∈ blocks, b.length = n) : blocks.flatten.length = blocks.length * n := by
  induction blocks with
  | nil => simp
  | cons b blocks ih =>
    rw [flatten_cons, length_append, h b mem_cons_self,
      ih fun c hc => h c (mem_cons_of_mem b hc), length_cons]
    ring

/-- **Reading block by block.**  In a file of blocks of one size, the piece at a
    block's offset is the block. -/
theorem slice_block {n i : Nat} {blocks : List (List α)} (h : ∀ b ∈ blocks, b.length = n)
    (hi : blocks[i]? = some b) : slice blocks.flatten (i * n) n = b := by
  induction blocks generalizing i with
  | nil => cases hi
  | cons c blocks ih =>
    have hc : c.length = n := h c mem_cons_self
    cases i with
    | zero =>
      obtain rfl : c = b := Option.some.inj hi
      rw [flatten_cons, Nat.zero_mul]
      unfold slice
      rw [drop_zero, take_append_of_le_length (by omega), take_of_length_le (by omega)]
    | succ i =>
      have hoff : (i + 1) * n = c.length + i * n := by rw [hc]; ring
      rw [flatten_cons, hoff, slice_append_right]
      exact ih (fun d hd => h d (mem_cons_of_mem c hd)) hi

end Pagedb.Lib
