import Mathlib.Data.Nat.ModEq
import Mathlib.Data.Nat.Size
import Mathlib.Tactic.LinearCombination
import Mathlib.Tactic.Ring

/-!
# Fixed-width limb vectors

A number stored as a little-endian list of `w`-bit limbs, and the schoolbook loops over such a list:
ripple-carry addition, complement and increment, the truncated row-by-row product, the two shifts,
comparison from the top limb, the position of the highest set bit, and bit-at-a-time long division.
One lemma for each loop says which number its limbs denote. The accumulator is a natural number
below `2 ^ (2 * w)`, so a double-width machine word would hold it.
-/

namespace Limbs

open List

variable {w : ℕ} {xs ys : List (BitVec w)}

/-- The number a little-endian limb list denotes. -/
def value : List (BitVec w) → ℕ
  | [] => 0
  | x :: xs => x.toNat + 2 ^ w * value xs

@[simp] theorem value_nil : value ([] : List (BitVec w)) = 0 := rfl

@[simp] theorem value_cons (x : BitVec w) : value (x :: xs) = x.toNat + 2 ^ w * value xs := rfl

/-- The modulus of an `n`-limb number. -/
def modulus (w n : ℕ) : ℕ := 2 ^ (w * n)

@[simp] theorem modulus_zero : modulus w 0 = 1 := by simp [modulus]

theorem modulus_succ (n : ℕ) : modulus w (n + 1) = 2 ^ w * modulus w n := by
  rw [modulus, modulus, Nat.mul_succ, pow_add, Nat.mul_comm]

theorem value_lt (xs : List (BitVec w)) : value xs < modulus w xs.length := by
  induction xs with
  | nil => simp
  | cons x xs ih =>
    rw [length_cons, modulus_succ]
    calc x.toNat + 2 ^ w * value xs < 2 ^ w * (value xs + 1) := by rw [Nat.mul_add]; omega
      _ ≤ 2 ^ w * modulus w xs.length := Nat.mul_le_mul_left _ ih

@[simp] theorem value_replicate_zero (n : ℕ) : value (List.replicate n 0#w) = 0 := by
  induction n with
  | zero => rfl
  | succ n ih => simp [replicate_succ, ih]

theorem value_append (xs ys : List (BitVec w)) :
    value (xs ++ ys) = value xs + modulus w xs.length * value ys := by
  induction xs with
  | nil => simp
  | cons x xs ih =>
    simp only [cons_append, value_cons, length_cons, modulus_succ, ih]
    ring

/-- Limb lists of one length denote distinct numbers. -/
theorem value_injective (hlen : xs.length = ys.length) (h : value xs = value ys) : xs = ys := by
  induction xs generalizing ys with
  | nil => exact (eq_nil_of_length_eq_zero hlen.symm).symm
  | cons x xs ih =>
    cases ys with
    | nil => simp at hlen
    | cons y ys =>
      simp only [value_cons] at h
      have hlow : x.toNat = y.toNat := by
        have := congrArg (· % 2 ^ w) h
        simpa using this
      have hhigh : value xs = value ys := by
        rw [hlow] at h
        exact Nat.eq_of_mul_eq_mul_left (Nat.two_pow_pos w) (Nat.add_left_cancel h)
      rw [BitVec.eq_of_toNat_eq hlow, ih (by simpa using hlen) hhigh]

/-- Reducing one limb: what stays in the limb and what is carried on. -/
theorem limb_split (n : ℕ) : (BitVec.ofNat w n).toNat + 2 ^ w * (n / 2 ^ w) = n := by
  exact Nat.mod_add_div n (2 ^ w)

/-- **One turn of a loop**: a limb goes below limbs that hold a reduced number. -/
theorem value_cons_mod (x : BitVec w) {v k : ℕ} (h : value xs = v % modulus w k) :
    value (x :: xs) = (x.toNat + 2 ^ w * v) % modulus w (k + 1) := by
  rw [value_cons, h, modulus_succ, Nat.mod_mul, Nat.add_mul_mod_self_left, Nat.mod_eq_of_lt x.isLt,
    Nat.add_mul_div_left _ _ (Nat.two_pow_pos w), Nat.div_eq_of_lt x.isLt, Nat.zero_add]

/-! ## Addition -/

/-- Ripple-carry addition; the carry out of the last limb is dropped. -/
def addCarry : List (BitVec w) → List (BitVec w) → ℕ → List (BitVec w)
  | x :: xs, y :: ys, carry =>
    let n := carry + x.toNat + y.toNat
    BitVec.ofNat w n :: addCarry xs ys (n / 2 ^ w)
  | _, _, _ => []

section

variable (hlen : xs.length = ys.length) (carry : ℕ)

include hlen carry

@[simp] theorem addCarry_length : (addCarry xs ys carry).length = xs.length := by
  induction xs generalizing ys carry with
  | nil => simp [addCarry]
  | cons x xs ih =>
    cases ys with
    | nil => simp at hlen
    | cons y ys =>
      have htail : xs.length = ys.length := by simpa using hlen
      simp [addCarry, ih htail]

theorem value_addCarry :
    value (addCarry xs ys carry) = (value xs + value ys + carry) % modulus w xs.length := by
  induction xs generalizing ys carry with
  | nil => simp [addCarry, Nat.mod_one]
  | cons x xs ih =>
    cases ys with
    | nil => simp at hlen
    | cons y ys =>
      have htail : xs.length = ys.length := by simpa using hlen
      have hs := limb_split (w := w) (carry + x.toNat + y.toNat)
      rw [addCarry, value_cons_mod _ (ih htail _), length_cons, value_cons, value_cons]
      congr 1
      linear_combination hs

end

/-! ## Complement, increment, negation -/

/-- Bitwise complement of every limb. -/
def complement (xs : List (BitVec w)) : List (BitVec w) := xs.map (~~~ ·)

theorem value_complement (xs : List (BitVec w)) :
    value (complement xs) + value xs + 1 = modulus w xs.length := by
  induction xs with
  | nil => simp [complement]
  | cons x xs ih =>
    have hnot : (~~~x).toNat + x.toNat + 1 = 2 ^ w := by rw [BitVec.toNat_not]; omega
    simp only [complement, map_cons, value_cons, length_cons, modulus_succ] at ih ⊢
    linear_combination hnot + 2 ^ w * ih

/-- Prefix increment: the next limb is touched only when this one wrapped to zero. -/
def incr : List (BitVec w) → List (BitVec w)
  | [] => []
  | x :: xs => if x + 1#w = 0#w then (x + 1#w) :: incr xs else (x + 1#w) :: xs

@[simp] theorem incr_length : (incr xs).length = xs.length := by
  induction xs with
  | nil => rfl
  | cons x xs ih => simp only [incr]; split <;> simp [ih]

theorem value_incr (hw : 0 < w) : value (incr xs) = (value xs + 1) % modulus w xs.length := by
  induction xs with
  | nil => simp [incr]
  | cons x xs ih =>
    have hadd : (x + 1#w).toNat = (x.toNat + 1) % 2 ^ w := by
      rw [BitVec.toNat_add, BitVec.toNat_one hw]
    rw [incr, length_cons, value_cons]
    by_cases h0 : x + 1#w = 0#w
    · have hwrap : x.toNat + 1 = 2 ^ w := by
        rw [h0, BitVec.toNat_zero] at hadd
        by_contra hne
        rw [Nat.mod_eq_of_lt (by omega)] at hadd
        omega
      rw [if_pos h0, value_cons_mod _ ih, h0, BitVec.toNat_zero]
      congr 1
      linear_combination hwrap.symm
    · have hne : (x + 1#w).toNat ≠ 0 := fun h => h0 (BitVec.eq_of_toNat_eq (by simpa using h))
      have hlt : x.toNat + 1 < 2 ^ w := by
        by_contra hge
        rw [show x.toNat + 1 = 2 ^ w by omega, Nat.mod_self] at hadd
        exact hne hadd
      rw [if_neg h0, value_cons_mod _ (Nat.mod_eq_of_lt (value_lt xs)).symm, hadd,
        Nat.mod_eq_of_lt hlt]
      congr 1
      ring

/-- Two's complement negation. -/
def neg (xs : List (BitVec w)) : List (BitVec w) := incr (complement xs)

@[simp] theorem neg_length : (neg xs).length = xs.length := by
  simp [neg, complement]

theorem value_neg (hw : 0 < w) :
    value (neg xs) = (modulus w xs.length - value xs) % modulus w xs.length := by
  have hcomp := value_complement xs
  rw [neg, value_incr hw, complement, length_map]
  congr 1
  simp only [complement] at hcomp
  omega

/-- Subtraction as addition of the negation. -/
def sub (xs ys : List (BitVec w)) : List (BitVec w) := addCarry xs (neg ys) 0

@[simp] theorem sub_length (hlen : xs.length = ys.length) : (sub xs ys).length = xs.length :=
  addCarry_length (by simpa using hlen) 0

theorem value_sub_mod (hw : 0 < w) (hlen : xs.length = ys.length) : value (sub xs ys) =
    (value xs + (modulus w xs.length - value ys)) % modulus w xs.length := by
  rw [sub, value_addCarry (by simpa using hlen), value_neg hw, ← hlen, Nat.add_zero,
    Nat.add_mod_mod]

theorem value_sub (hw : 0 < w) (hlen : xs.length = ys.length) (hle : value ys ≤ value xs) :
    value (sub xs ys) = value xs - value ys := by
  have hx := value_lt xs
  rw [value_sub_mod hw hlen, show value xs + (modulus w xs.length - value ys)
    = (value xs - value ys) + modulus w xs.length by omega, Nat.add_mod_right]
  exact Nat.mod_eq_of_lt (by omega)

/-! ## Products -/

/-- The double-width accumulator of one product step. -/
def mulStep (p a b : BitVec w) (carry : ℕ) : ℕ := carry + p.toNat + a.toNat * b.toNat

/-- One row of the schoolbook product: adds `a` times the second list into the first,
dropping what leaves the last limb. -/
def mulRow (a : BitVec w) : List (BitVec w) → List (BitVec w) → ℕ → List (BitVec w)
  | p :: ps, b :: bs, carry =>
    let n := mulStep p a b carry
    BitVec.ofNat w n :: mulRow a ps bs (n / 2 ^ w)
  | ps, _, _ => ps

@[simp] theorem mulRow_length (a : BitVec w) (ps bs : List (BitVec w)) (carry : ℕ) :
    (mulRow a ps bs carry).length = ps.length := by
  fun_induction mulRow a ps bs carry with
  | case1 p ps b bs carry n ih => simp [ih]
  | case2 => rfl

variable {ps bs as : List (BitVec w)}

theorem value_mulRow (a : BitVec w) (hlen : ps.length ≤ bs.length)
    (carry : ℕ) : value (mulRow a ps bs carry) =
      (value ps + a.toNat * value bs + carry) % modulus w ps.length := by
  induction ps generalizing bs carry with
  | nil => cases bs <;> simp [mulRow, Nat.mod_one]
  | cons p ps ih =>
    cases bs with
    | nil => simp at hlen
    | cons b bs =>
      have htail : ps.length ≤ bs.length := by simpa using hlen
      have hs := limb_split (w := w) (mulStep p a b carry)
      have hstep : mulStep p a b carry = carry + p.toNat + a.toNat * b.toNat := rfl
      rw [mulRow, value_cons_mod _ (ih htail _), length_cons, value_cons, value_cons]
      congr 1
      linear_combination hs + hstep

/-- The row-by-row product. Row `j` starts at limb `j`, so the head of the accumulator is
final after its row and the next row runs on the tail. -/
def mulLoop : List (BitVec w) → List (BitVec w) → List (BitVec w) → List (BitVec w)
  | [], _, ps => ps
  | a :: as, bs, ps =>
    match mulRow a ps bs 0 with
    | [] => []
    | q :: qs => q :: mulLoop as bs qs

@[simp] theorem mulLoop_length (as bs ps : List (BitVec w)) :
    (mulLoop as bs ps).length = ps.length := by
  induction as generalizing ps with
  | nil => rfl
  | cons a as ih =>
    have hrow := mulRow_length a ps bs 0
    simp only [mulLoop]
    split
    · rename_i heq; rw [← hrow, heq]
    · rename_i q qs heq; rw [← hrow, heq, length_cons, ih, length_cons]

theorem value_mulLoop (hlen : ps.length ≤ bs.length)
    (has : as.length = ps.length) : value (mulLoop as bs ps) =
      (value ps + value as * value bs) % modulus w ps.length := by
  induction as generalizing ps with
  | nil => simp [mulLoop, Nat.mod_eq_of_lt (value_lt ps)]
  | cons a as ih =>
    have hvalue := value_mulRow a hlen 0
    have hrow := mulRow_length a ps bs 0
    cases hq : mulRow a ps bs 0 with
    | nil => rw [hq] at hrow; simp [← hrow] at has
    | cons q qs =>
      rw [hq] at hrow hvalue
      simp only [length_cons] at hrow has
      have hrest := value_cons_mod q (@ih qs (by omega) (by omega))
      simp only [mulLoop, hq]
      rw [hrest, hrow, Nat.mul_add, ← Nat.add_assoc, ← value_cons, hvalue, Nat.mod_add_mod]
      congr 1
      rw [value_cons]
      ring

/-- The product truncated to the width of the operands. -/
def mul (as bs : List (BitVec w)) : List (BitVec w) :=
  mulLoop as bs (List.replicate as.length 0#w)

@[simp] theorem mul_length (as bs : List (BitVec w)) : (mul as bs).length = as.length := by
  simp [mul]

/-- **The limb product is the product modulo the width.** -/
theorem value_mul (hlen : as.length = bs.length) :
    value (mul as bs) = value as * value bs % modulus w as.length := by
  have hzero : (replicate as.length 0#w).length ≤ bs.length := by simp [hlen]
  rw [mul, value_mulLoop hzero length_replicate.symm, value_replicate_zero, Nat.zero_add,
    length_replicate]

/-- Multiplication by a single limb. -/
def mulWord (b : BitVec w) : List (BitVec w) → ℕ → List (BitVec w)
  | [], _ => []
  | x :: xs, carry =>
    let n := carry + b.toNat * x.toNat
    BitVec.ofNat w n :: mulWord b xs (n / 2 ^ w)

@[simp] theorem mulWord_length (b : BitVec w) (carry : ℕ) :
    (mulWord b xs carry).length = xs.length := by
  induction xs generalizing carry with
  | nil => rfl
  | cons x xs ih => simp [mulWord, ih]

theorem value_mulWord (b : BitVec w) (carry : ℕ) :
    value (mulWord b xs carry) = (carry + b.toNat * value xs) % modulus w xs.length := by
  induction xs generalizing carry with
  | nil => simp [mulWord, Nat.mod_one]
  | cons x xs ih =>
    have hs := limb_split (w := w) (carry + b.toNat * x.toNat)
    rw [mulWord, value_cons_mod _ (ih _), length_cons, value_cons]
    congr 1
    linear_combination hs

/-! ## Shifts -/

/-- The left shift by `s` bits below a limb, with the bits `carry` coming from below. -/
def shlFrom (s : ℕ) : BitVec w → List (BitVec w) → List (BitVec w)
  | _, [] => []
  | carry, x :: xs =>
    ((x <<< s) ||| carry) :: shlFrom s (if s = 0 then 0#w else x >>> (w - s)) xs

@[simp] theorem shlFrom_length (s : ℕ) (carry : BitVec w) :
    (shlFrom s carry xs).length = xs.length := by
  induction xs generalizing carry with
  | nil => rfl
  | cons x xs ih => simp [shlFrom, ih]

variable {s : ℕ}

/-- A limb shifted left keeps its low bits in place and sends the others upwards. -/
theorem shl_limb_split (hs : s < w) (x carry : BitVec w) (hc : carry.toNat < 2 ^ s) :
    ((x <<< s) ||| carry).toNat + 2 ^ w * (if s = 0 then 0#w else x >>> (w - s)).toNat
      = x.toNat * 2 ^ s + carry.toNat := by
  have hpow : 2 ^ w = 2 ^ s * 2 ^ (w - s) := by rw [← pow_add]; congr 1; omega
  have hlow : (x <<< s).toNat = 2 ^ s * (x.toNat % 2 ^ (w - s)) := by
    rw [BitVec.toNat_shiftLeft, Nat.shiftLeft_eq, hpow, Nat.mul_comm x.toNat, Nat.mul_mod_mul_left]
  have hhigh : (if s = 0 then 0#w else x >>> (w - s)).toNat = x.toNat / 2 ^ (w - s) := by
    split
    · rename_i h0
      rw [h0, Nat.sub_zero, Nat.div_eq_of_lt x.isLt, BitVec.toNat_zero]
    · rw [BitVec.toNat_ushiftRight, Nat.shiftRight_eq_div_pow]
  rw [BitVec.toNat_or, hlow, ← Nat.two_pow_add_eq_or_of_lt hc, hhigh, hpow]
  have hdm := Nat.mod_add_div x.toNat (2 ^ (w - s))
  linear_combination 2 ^ s * hdm

theorem value_shlFrom (hs : s < w) (carry : BitVec w) (hc : carry.toNat < 2 ^ s) :
    value (shlFrom s carry xs) = (value xs * 2 ^ s + carry.toNat) % modulus w xs.length := by
  induction xs generalizing carry with
  | nil => simp [shlFrom, Nat.mod_one]
  | cons x xs ih =>
    have hnext : (if s = 0 then 0#w else x >>> (w - s)).toNat < 2 ^ s := by
      split
      · exact Nat.two_pow_pos s
      · rw [BitVec.toNat_ushiftRight, Nat.shiftRight_eq_div_pow]
        refine Nat.div_lt_of_lt_mul ?_
        rw [← pow_add, show w - s + s = w by omega]
        exact x.isLt
    have hsplit := shl_limb_split hs x carry hc
    rw [shlFrom, value_cons_mod _ (ih _ hnext), length_cons, value_cons]
    congr 1
    linear_combination hsplit

/-- Left shift: whole limbs first, then the bits below a limb; what leaves the top is lost. -/
def shl (xs : List (BitVec w)) (shift : ℕ) : List (BitVec w) :=
  (List.replicate (shift / w) 0#w ++ shlFrom (shift % w) 0#w xs).take xs.length

@[simp] theorem shl_length (shift : ℕ) : (shl xs shift).length = xs.length := by
  simp [shl]

theorem value_take (n : ℕ) : value (xs.take n) = value xs % modulus w n := by
  induction xs generalizing n with
  | nil => simp
  | cons x xs ih =>
    cases n with
    | zero => simp [Nat.mod_one]
    | succ n => rw [take_succ_cons, value_cons_mod _ (ih n), value_cons]

theorem value_shl (hw : 0 < w) (shift : ℕ) :
    value (shl xs shift) = value xs * 2 ^ shift % modulus w xs.length := by
  have hpow : 2 ^ shift = 2 ^ (w * (shift / w)) * 2 ^ (shift % w) := by
    rw [← pow_add, Nat.div_add_mod]
  rw [shl, value_take, value_append, value_replicate_zero, length_replicate, Nat.zero_add,
    value_shlFrom (Nat.mod_lt shift hw) 0#w (by simp), Nat.mul_mod_mod, BitVec.toNat_zero,
    Nat.add_zero, hpow, Nat.mul_left_comm, modulus]

/-- The right shift by `s` bits below a limb: each limb takes its missing top bits from
the limb above it. -/
def shrFrom (s : ℕ) : List (BitVec w) → List (BitVec w)
  | [] => []
  | [x] => [x >>> s]
  | x :: y :: ys =>
    ((if s = 0 then 0#w else y <<< (w - s)) ||| (x >>> s)) :: shrFrom s (y :: ys)

@[simp] theorem shrFrom_length (s : ℕ) : (shrFrom s xs).length = xs.length := by
  fun_induction shrFrom s xs with
  | case1 => rfl
  | case2 x => rfl
  | case3 x y ys ih => simp [ih]

/-- A limb shifted right keeps its high bits and takes the low bits of the limb above. -/
theorem shr_limb (hs : s < w) (x y : BitVec w) :
    ((if s = 0 then 0#w else y <<< (w - s)) ||| (x >>> s)).toNat
      = x.toNat / 2 ^ s + 2 ^ (w - s) * (y.toNat % 2 ^ s) := by
  have hpow : 2 ^ w = 2 ^ (w - s) * 2 ^ s := by rw [← pow_add]; congr 1; omega
  have hlow : (x >>> s).toNat = x.toNat / 2 ^ s := by
    rw [BitVec.toNat_ushiftRight, Nat.shiftRight_eq_div_pow]
  have hxlt : x.toNat / 2 ^ s < 2 ^ (w - s) := by
    refine Nat.div_lt_of_lt_mul ?_
    rw [Nat.mul_comm, ← hpow]
    exact x.isLt
  by_cases h0 : s = 0
  · subst h0
    simp [Nat.mod_one]
  · rw [if_neg h0, BitVec.toNat_or, BitVec.toNat_shiftLeft, Nat.shiftLeft_eq, hpow,
      Nat.mul_comm y.toNat, Nat.mul_mod_mul_left, hlow, ← Nat.two_pow_add_eq_or_of_lt hxlt]
    exact Nat.add_comm _ _

theorem value_shrFrom (hs : s < w) : value (shrFrom s xs) = value xs / 2 ^ s := by
  fun_induction shrFrom s xs with
  | case1 => simp
  | case2 x => simp [Nat.shiftRight_eq_div_pow]
  | case3 x y ys ih =>
    have hpow : 2 ^ w = 2 ^ s * 2 ^ (w - s) := by rw [← pow_add]; congr 1; omega
    have hmod : value (y :: ys) % 2 ^ s = y.toNat % 2 ^ s := by
      rw [value_cons, hpow, Nat.mul_assoc, Nat.add_mul_mod_self_left]
    have hdm := Nat.mod_add_div (value (y :: ys)) (2 ^ s)
    rw [value_cons, shr_limb hs, ih, value_cons x, ← hmod]
    -- The bits that cross the limb boundary are exactly the low bits of the rest.
    have hrest : x.toNat + 2 ^ w * value (y :: ys)
        = x.toNat + 2 ^ s * (2 ^ (w - s) * (value (y :: ys) % 2 ^ s)
          + 2 ^ w * (value (y :: ys) / 2 ^ s)) := by
      conv_lhs => rw [← hdm]
      rw [hpow]; ring
    rw [hrest, Nat.add_mul_div_left _ _ (Nat.two_pow_pos s)]
    ring

/-- Right shift: whole limbs first, then the bits below a limb. -/
def shr (xs : List (BitVec w)) (shift : ℕ) : List (BitVec w) :=
  shrFrom (shift % w) (xs.drop (shift / w)) ++ List.replicate (min (shift / w) xs.length) 0#w

@[simp] theorem shr_length (shift : ℕ) : (shr xs shift).length = xs.length := by
  simp only [shr, length_append, shrFrom_length, length_drop, length_replicate]
  omega

theorem value_drop (k : ℕ) : value (xs.drop k) = value xs / modulus w k := by
  induction xs generalizing k with
  | nil => simp
  | cons x xs ih =>
    cases k with
    | zero => simp
    | succ k =>
      rw [drop_succ_cons, ih, value_cons, modulus_succ, ← Nat.div_div_eq_div_mul,
        Nat.add_mul_div_left _ _ (Nat.two_pow_pos w), Nat.div_eq_of_lt x.isLt, Nat.zero_add]

theorem value_shr (hw : 0 < w) (shift : ℕ) : value (shr xs shift) = value xs / 2 ^ shift := by
  rw [shr, value_append, value_replicate_zero, Nat.mul_zero, Nat.add_zero,
    value_shrFrom (Nat.mod_lt shift hw), value_drop, Nat.div_div_eq_div_mul, modulus,
    ← pow_add, Nat.div_add_mod]

/-! ## Comparison and the highest set bit -/

/-- Comparison from the top limb down: the rest of the list decides first. -/
def compareTo : List (BitVec w) → List (BitVec w) → Ordering
  | x :: xs, y :: ys =>
    match compareTo xs ys with
    | .eq => if x < y then .lt else if x > y then .gt else .eq
    | o => o
  | _, _ => .eq

theorem compareTo_eq_compare (hlen : xs.length = ys.length) :
    compareTo xs ys = compare (value xs) (value ys) := by
  induction xs generalizing ys with
  | nil =>
    cases ys with
    | nil => simp [compareTo]
    | cons y ys => simp at hlen
  | cons x xs ih =>
    cases ys with
    | nil => simp at hlen
    | cons y ys =>
      have hx := x.isLt
      have hy := y.isLt
      have htail : xs.length = ys.length := by simpa using hlen
      have h := ih htail
      simp only [compareTo, value_cons]
      rcases Nat.lt_trichotomy (value xs) (value ys) with hlt | heq | hgt
      · -- A smaller upper part outweighs any low limb.
        have hmul : 2 ^ w * (value xs + 1) ≤ 2 ^ w * value ys := Nat.mul_le_mul_left _ hlt
        rw [h, Nat.compare_eq_lt.mpr hlt, Nat.compare_eq_lt.mpr (by rw [Nat.mul_add] at hmul; omega)]
      · rw [h, Nat.compare_eq_eq.mpr heq, heq]
        simp only [BitVec.lt_def, gt_iff_lt]
        rcases Nat.lt_trichotomy x.toNat y.toNat with hl | he | hg
        · rw [if_pos hl, Nat.compare_eq_lt.mpr (by omega)]
        · rw [if_neg (by omega), if_neg (by omega), he, Nat.compare_eq_eq.mpr rfl]
        · rw [if_neg (by omega), if_pos hg, Nat.compare_eq_gt.mpr (by omega)]
      · have hmul : 2 ^ w * (value ys + 1) ≤ 2 ^ w * value xs := Nat.mul_le_mul_left _ hgt
        rw [h, Nat.compare_eq_gt.mpr hgt, Nat.compare_eq_gt.mpr (by rw [Nat.mul_add] at hmul; omega)]

/-- The highest set bit of a nonzero limb, plus one, searched from bit `n` down. -/
def wordBits (x : BitVec w) : ℕ → ℕ
  | 0 => 1
  | n + 1 => if x.getLsbD (n + 1) then n + 2 else wordBits x n

theorem wordBits_eq_size {x : BitVec w} (hx : x.toNat ≠ 0) (n : ℕ) (hn : x.toNat < 2 ^ (n + 1)) :
    wordBits x n = x.toNat.size := by
  induction n with
  | zero =>
    have h1 : x.toNat = 1 := by omega
    simp [wordBits, h1]
  | succ n ih =>
    simp only [wordBits]
    split
    · rename_i hb
      have hge : 2 ^ (n + 1) ≤ x.toNat := Nat.ge_two_pow_of_testBit hb
      have hle := Nat.size_le.mpr hn
      have hlt := Nat.lt_size.mpr hge
      omega
    · rename_i hb
      refine ih ?_
      by_contra hge
      have hdiv : x.toNat / 2 ^ (n + 1) = 1 := by
        refine Nat.div_eq_of_lt_le (by omega) ?_
        rw [show (1 + 1) * 2 ^ (n + 1) = 2 ^ (n + 1 + 1) by ring]
        exact hn
      apply hb
      rw [BitVec.getLsbD, Nat.testBit_eq_decide_div_mod_eq, hdiv]
      rfl

/-- The position of the highest set bit plus one, or zero. -/
def bits : List (BitVec w) → ℕ
  | [] => 0
  | x :: xs =>
    if bits xs = 0 then (if x = 0#w then 0 else wordBits x (w - 1)) else w + bits xs

theorem bits_eq_size : bits xs = (value xs).size := by
  induction xs with
  | nil => simp [bits]
  | cons x xs ih =>
    have hx := x.isLt
    simp only [bits, ih, value_cons, Nat.size_eq_zero]
    split
    · rename_i h0
      rw [h0]
      split
      · rename_i hz; simp [hz]
      · rename_i hz
        have hne : x.toNat ≠ 0 := fun h => hz (BitVec.eq_of_toNat_eq (by simpa using h))
        have hw : w ≠ 0 := by rintro rfl; exact hne (by omega)
        exact wordBits_eq_size hne (w - 1) (by rwa [Nat.sub_add_cancel (by omega)])
    · -- The low limb cannot change the size: both bounds shift by one whole limb.
      obtain ⟨k, hk⟩ : ∃ k, (value xs).size = k + 1 :=
        Nat.exists_eq_succ_of_ne_zero (by rwa [Ne, Nat.size_eq_zero])
      have hlow : 2 ^ k ≤ value xs := Nat.lt_size.mp (by omega)
      have hhigh : value xs < 2 ^ (k + 1) := Nat.size_le.mp (by omega)
      have h1 : 2 ^ (w + k) ≤ x.toNat + 2 ^ w * value xs := by
        rw [pow_add]
        exact le_trans (Nat.mul_le_mul_left _ hlow) (Nat.le_add_left _ _)
      have h2 : x.toNat + 2 ^ w * value xs < 2 ^ (w + (k + 1)) := by
        have := Nat.mul_le_mul_left (2 ^ w) (show value xs + 1 ≤ 2 ^ (k + 1) from hhigh)
        rw [Nat.mul_add, ← pow_add] at this
        omega
      have hsz1 := Nat.lt_size.mpr h1
      have hsz2 := Nat.size_le.mpr h2
      omega

/-! ## Long division -/

/-- Sets one bit. -/
def setBit (xs : List (BitVec w)) (s : ℕ) : List (BitVec w) :=
  xs.modify (s / w) (· ||| (1#w <<< (s % w)))

@[simp] theorem setBit_length (s : ℕ) : (setBit xs s).length = xs.length := by simp [setBit]

/-- Setting a bit that is clear, with everything below it clear too, adds its weight. -/
theorem value_setBit (hw : 0 < w) {xs : List (BitVec w)} (hs : s < w * xs.length)
    (hdvd : 2 ^ (s + 1) ∣ value xs) : value (setBit xs s) = value xs + 2 ^ s := by
  induction xs generalizing s with
  | nil => simp at hs
  | cons x xs ih =>
    have hx := x.isLt
    by_cases hsw : s < w
    · have hxd : 2 ^ (s + 1) ∣ x.toNat := by
        have h2 : 2 ^ (s + 1) ∣ 2 ^ w * value xs :=
          Dvd.dvd.mul_right (pow_dvd_pow 2 (by omega)) _
        exact (Nat.dvd_add_left h2).mp (by rwa [value_cons] at hdvd)
      obtain ⟨q, hq⟩ := hxd
      have hbit : (1#w <<< s).toNat = 2 ^ s := by
        rw [BitVec.toNat_shiftLeft, BitVec.toNat_one hw, Nat.one_shiftLeft,
          Nat.mod_eq_of_lt (Nat.pow_lt_pow_right (by omega) hsw)]
      have hor : (x ||| (1#w <<< s)).toNat = x.toNat + 2 ^ s := by
        rw [BitVec.toNat_or, hbit, hq, Nat.two_pow_add_eq_or_of_lt]
        exact Nat.pow_lt_pow_right (by omega) (by omega)
      simp only [setBit, Nat.div_eq_of_lt hsw, Nat.mod_eq_of_lt hsw, modify_zero_cons, value_cons,
        hor]
      ring
    · obtain ⟨t, rfl⟩ : ∃ t, s = w + t := ⟨s - w, by omega⟩
      have hx0 : x.toNat = 0 := by
        have h1 : 2 ^ w ∣ x.toNat + 2 ^ w * value xs :=
          dvd_trans (pow_dvd_pow 2 (by omega)) hdvd
        exact Nat.eq_zero_of_dvd_of_lt ((Nat.dvd_add_left (Nat.dvd_mul_right _ _)).mp h1) hx
      have hrest : 2 ^ (t + 1) ∣ value xs := by
        rw [value_cons, hx0, Nat.zero_add, Nat.add_assoc, pow_add] at hdvd
        exact Nat.dvd_of_mul_dvd_mul_left (Nat.two_pow_pos w) hdvd
      have hlt : t < w * xs.length := by
        rw [length_cons, Nat.mul_succ] at hs
        omega
      have h := ih hlt hrest
      rw [setBit] at h ⊢
      rw [Nat.add_div_left _ hw, Nat.add_mod_left, modify_succ_cons, value_cons, value_cons, h]
      ring

/-- The subtract-and-shift loop; `n` is the shift that is still to be undone, plus one. -/
def divLoop : ℕ → List (BitVec w) → List (BitVec w) → List (BitVec w) → List (BitVec w)
  | 0, _, _, quot => quot
  | n + 1, num, den, quot =>
    if compareTo num den ≠ .lt then
      divLoop n (sub num den) (shr den 1) (setBit quot n)
    else
      divLoop n num (shr den 1) quot

/-- **What the division loop keeps.** With the divisor still shifted by one less than `n`
and the remainder below the divisor shifted by `n`, the loop adds the quotient of the
remainder to the bits already set. -/
theorem divLoop_spec (hw : 0 < w) {L d : ℕ} (hd : 0 < d) (n : ℕ) (num den quot : List (BitVec w))
    (hnum : num.length = L) (hden : den.length = L) (hquot : quot.length = L) (hn : n ≤ w * L)
    (hdv : value den = d * 2 ^ n / 2) (hlt : value num < d * 2 ^ n) (hq : 2 ^ n ∣ value quot) :
    (divLoop n num den quot).length = L ∧
      value (divLoop n num den quot) = value quot + value num / d := by
  induction n generalizing num den quot with
  | zero =>
    rw [pow_zero, Nat.mul_one] at hlt
    exact ⟨hquot, by rw [divLoop, Nat.div_eq_of_lt hlt, Nat.add_zero]⟩
  | succ n ih =>
    have hdv' : value den = d * 2 ^ n := by
      rw [hdv, pow_succ, ← Nat.mul_assoc, Nat.mul_div_cancel _ (by omega)]
    have hshr : value (shr den 1) = d * 2 ^ n / 2 := by rw [value_shr hw, hdv', pow_one]
    have hcmp := compareTo_eq_compare (hnum.trans hden.symm)
    simp only [divLoop]
    split
    · rename_i hge
      have hle : value den ≤ value num := by
        by_contra hc
        exact hge (by rw [hcmp, Nat.compare_eq_lt.mpr (by omega)])
      have hsub := value_sub hw (hnum.trans hden.symm) hle
      have hset := value_setBit hw (by rw [hquot]; omega) hq
      have hlen : (sub num den).length = L := by
        rw [sub_length (hnum.trans hden.symm), hnum]
      obtain ⟨hl, hv⟩ := ih (sub num den) (shr den 1) (setBit quot n) hlen
        (by simpa using hden) (by simpa using hquot) (by omega) hshr
        (by rw [hsub]; rw [pow_succ, ← Nat.mul_assoc] at hlt; omega)
        (by rw [hset]; exact Nat.dvd_add (dvd_trans (pow_dvd_pow 2 (by omega)) hq) (dvd_refl _))
      refine ⟨hl, ?_⟩
      rw [hv, hsub, hdv', Nat.sub_mul_div]
      have : 2 ^ n ≤ value num / d := by
        rw [Nat.le_div_iff_mul_le hd, Nat.mul_comm, ← hdv']; exact hle
      omega
    · rename_i hlt'
      have hnlt : value num < d * 2 ^ n := by
        rw [not_not, hcmp, Nat.compare_eq_lt] at hlt'
        rwa [← hdv']
      exact ih num (shr den 1) quot hnum (by simpa using hden) hquot (by omega) hshr hnlt
        (dvd_trans (pow_dvd_pow 2 (by omega)) hq)

/-- Long division; `none` is the division-by-zero error. -/
def div (num den : List (BitVec w)) : Option (List (BitVec w)) :=
  if bits den = 0 then none
  else if bits den > bits num then some (List.replicate num.length 0#w)
  else some (divLoop (bits num - bits den + 1) num (shl den (bits num - bits den))
    (List.replicate num.length 0#w))

/-- **Long division computes the integer quotient.** -/
theorem div_spec (hw : 0 < w) {num den : List (BitVec w)} (hlen : num.length = den.length)
    (hd : value den ≠ 0) : ∃ q, div num den = some q ∧ q.length = num.length ∧
      value q = value num / value den := by
  obtain ⟨k, hk⟩ : ∃ k, bits den = k + 1 :=
    Nat.exists_eq_succ_of_ne_zero (by rwa [bits_eq_size, Ne, Nat.size_eq_zero])
  have hdlow : 2 ^ k ≤ value den := Nat.lt_size.mp (by rw [← bits_eq_size]; omega)
  have hdhigh : value den < 2 ^ (k + 1) := Nat.size_le.mp (by rw [← bits_eq_size]; omega)
  have hnhigh : value num < 2 ^ bits num := by rw [bits_eq_size]; exact Nat.lt_size_self _
  have hnwidth : bits num ≤ w * num.length := by
    rw [bits_eq_size, Nat.size_le]; exact value_lt num
  by_cases hgt : bits den > bits num
  · refine ⟨replicate num.length 0#w, by rw [div, if_neg (by omega), if_pos hgt], by simp, ?_⟩
    have hle : 2 ^ bits num ≤ 2 ^ k := Nat.pow_le_pow_right (by omega) (by omega)
    rw [value_replicate_zero, Nat.div_eq_of_lt (by omega)]
  · obtain ⟨t, ht⟩ : ∃ t, bits num = k + 1 + t := ⟨bits num - (k + 1), by omega⟩
    have hshift : bits num - bits den = t := by omega
    have hshl : value (shl den t) = value den * 2 ^ t := by
      rw [value_shl hw, ← hlen, Nat.mod_eq_of_lt]
      calc value den * 2 ^ t < 2 ^ (k + 1) * 2 ^ t :=
            Nat.mul_lt_mul_of_pos_right hdhigh (Nat.two_pow_pos t)
        _ = 2 ^ bits num := by rw [← pow_add, ht]
        _ ≤ modulus w num.length := Nat.pow_le_pow_right (by omega) hnwidth
    have hnum : value num < value den * 2 ^ (t + 1) := by
      calc value num < 2 ^ bits num := hnhigh
        _ = 2 ^ k * 2 ^ (t + 1) := by rw [← pow_add]; congr 1; omega
        _ ≤ value den * 2 ^ (t + 1) := Nat.mul_le_mul_right _ hdlow
    obtain ⟨hl, hv⟩ := divLoop_spec hw (Nat.pos_of_ne_zero hd) (t + 1)
      num (shl den t) (replicate num.length 0#w) rfl
      (by simp [hlen]) (by simp) (by omega)
      (by rw [hshl, pow_succ, ← Nat.mul_assoc, Nat.mul_div_cancel _ (by omega)]) hnum (by simp)
    refine ⟨_, by rw [div, if_neg (by omega), if_neg hgt, hshift], hl, ?_⟩
    rw [hv, value_replicate_zero, Nat.zero_add]

end Limbs
