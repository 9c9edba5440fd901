import Mathlib.Algebra.Group.Hom.Defs
import Mathlib.Tactic.NormNum

/-!
# Machine numbers

The conversion of an integer to `int` and to `int64_t`, sums of `int64_t`, and the product of a `double`
constant and an integer that is converted back to an integer. A positive `double` is a
mantissa of 53 bits times a power of two; a product is rounded to 53 bits, to even where it
lies halfway.
-/

namespace MachineNumber

/-- The value of an integer converted to a 32-bit `int`. -/
def toInt32 (n : ℤ) : ℤ := (n + 2 ^ 31) % 2 ^ 32 - 2 ^ 31

theorem toInt32_of_range {n : ℤ} (hlo : -2 ^ 31 ≤ n) (hhi : n < 2 ^ 31) : toInt32 n = n := by
  unfold toInt32
  omega

/-- The value of an integer converted to a 64-bit `int64_t`. -/
def toInt64 (n : ℤ) : ℤ := (n + 2 ^ 63) % 2 ^ 64 - 2 ^ 63

theorem toInt64_of_range {n : ℤ} (hlo : -2 ^ 63 ≤ n) (hhi : n < 2 ^ 63) : toInt64 n = n := by
  unfold toInt64
  omega

@[simp] theorem toInt64_toInt64 (n : ℤ) : toInt64 (toInt64 n) = toInt64 n := by
  unfold toInt64
  omega

/-- A sum may be converted at the end only. -/
@[simp] theorem toInt64_toInt64_add (a b : ℤ) : toInt64 (toInt64 a + b) = toInt64 (a + b) := by
  unfold toInt64
  omega

/-- Sums of 64-bit numbers wrap. -/
instance instAddCommGroupInt64 : AddCommGroup Int64 where
  add_assoc := Int64.add_assoc
  zero_add := Int64.zero_add
  add_zero := Int64.add_zero
  add_comm := Int64.add_comm
  neg_add_cancel := Int64.add_left_neg
  sub_eq_add_neg := Int64.sub_eq_add_neg
  nsmul := nsmulRec
  zsmul := zsmulRec

/-- The 64-bit number an integer is converted to. -/
def wrap : ℤ →+ Int64 := .mk' Int64.ofInt Int64.ofInt_add

/-- An integer fits into 64 bits. -/
def Fits64 (n : ℤ) : Prop := -2 ^ 63 ≤ n ∧ n < 2 ^ 63

instance (n : ℤ) : Decidable (Fits64 n) := inferInstanceAs (Decidable (_ ∧ _))

theorem wrap_toInt (x : Int64) : wrap x.toInt = x := Int64.ofInt_toInt x

/-- A 64-bit number is an integer exactly if the integer is converted to it and fits. -/
theorem toInt_eq_iff {x : Int64} {n : ℤ} : x.toInt = n ↔ x = wrap n ∧ Fits64 n := by
  constructor
  · rintro rfl
    exact ⟨(wrap_toInt x).symm, x.le_toInt, x.toInt_lt⟩
  · rintro ⟨rfl, hlo, hhi⟩
    exact Int64.toInt_ofInt_of_le hlo hhi

/-- A natural number rounded to 53 significant bits, to even where it lies halfway. -/
def roundDouble (n : ℕ) : ℕ :=
  let k := Nat.log2 n - 52
  let q := n / 2 ^ k
  let r := n % 2 ^ k
  if 2 ^ k < 2 * r ∨ (2 ^ k = 2 * r ∧ q % 2 = 1) then (q + 1) * 2 ^ k else q * 2 ^ k

/-- The constant `m / 2 ^ e` times an integer, in `double` arithmetic, converted to an
integer. -/
def scaleTrunc (m e : ℕ) (n : ℤ) : ℤ :=
  let product : ℤ := roundDouble (m * roundDouble n.natAbs) / 2 ^ e
  if n < 0 then -product else product

theorem scaleTrunc_nonneg {m e : ℕ} {n : ℤ} (h : 0 ≤ n) : 0 ≤ scaleTrunc m e n := by
  have hlt : ¬ n < 0 := by omega
  rw [scaleTrunc, if_neg hlt]
  positivity

end MachineNumber
