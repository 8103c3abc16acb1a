/-
  Pagedb.Lib.Bytes — fixed-width integers as byte strings.

    * `leBytes`, `beBytes` — the low bytes of a number, either end first;
    * `ofLeBytes_leBytes`  — reading back gives the number modulo its width;
    * `leBytes_inj`        — so equal bytes mean equal low bytes.
-/
import Mathlib

namespace Pagedb.Lib

/-- The low `width` bytes of a number, least significant first. -/
def leBytes : Nat → Nat → List UInt8
  | 0, _ => []
  | width + 1, n => UInt8.ofNat (n % 256) :: leBytes width (n / 256)

/-- The number a byte string spells, least significant byte first. -/
def ofLeBytes : List UInt8 → Nat
  | [] => 0
  | b :: bytes => b.toNat + 256 * ofLeBytes bytes

/-- The low `width` bytes of a number, most significant first. -/
def beBytes (width n : Nat) : List UInt8 := (leBytes width n).reverse

/-- The number a byte string spells, most significant byte first. -/
def ofBeBytes (bytes : List UInt8) : Nat := ofLeBytes bytes.reverse

@[simp] theorem leBytes_length (width n : Nat) : (leBytes width n).length = width := by
  induction width generalizing n with
  | zero => rfl
  | succ width ih => simp [leBytes, ih]

@[simp] theorem beBytes_length (width n : Nat) : (beBytes width n).length = width := by
  simp [beBytes]

theorem ofLeBytes_leBytes (width n : Nat) : ofLeBytes (leBytes width n) = n % 256 ^ width := by
  induction width generalizing n with
  | zero => simp [leBytes, ofLeBytes, Nat.mod_one]
  | succ width ih =>
    have hbyte : (UInt8.ofNat (n % 256)).toNat = n % 256 :=
      UInt8.toNat_ofNat_of_lt (Nat.mod_lt n (by omega))
    show (UInt8.ofNat (n % 256)).toNat + 256 * ofLeBytes (leBytes width (n / 256)) = _
    rw [hbyte, ih, Nat.pow_succ', Nat.mod_mul]

theorem ofLeBytes_leBytes_of_lt {width n : Nat} (h : n < 256 ^ width) :
    ofLeBytes (leBytes width n) = n := by
  rw [ofLeBytes_leBytes, Nat.mod_eq_of_lt h]

theorem ofBeBytes_beBytes_of_lt {width n : Nat} (h : n < 256 ^ width) :
    ofBeBytes (beBytes width n) = n := by
  simp [ofBeBytes, beBytes, ofLeBytes_leBytes_of_lt h]

theorem leBytes_inj {width a b : Nat} (ha : a < 256 ^ width) (hb : b < 256 ^ width)
    (h : leBytes width a = leBytes width b) : a = b := by
  rw [← ofLeBytes_leBytes_of_lt ha, h, ofLeBytes_leBytes_of_lt hb]

end Pagedb.Lib
