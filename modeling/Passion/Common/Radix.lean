import Mathlib.Data.Nat.Digits.Defs

/-!
# Changing the radix of a number in place

A buffer of digits, least significant first, of which only the first few are in use. One pass
multiplies the number by a constant and adds a digit, going no further than the digits in use
and the carry make necessary.
-/

namespace Radix

/-- One pass over a buffer of which the first `length` digits are in use: the new digits, how
many are in use now, and the carry that found no digit. -/
def mulAdd (base mul : ℕ) : List ℕ → ℕ → ℕ → List ℕ × ℕ × ℕ
  | [], _, carry => ([], 0, carry)
  | d :: ds, length, carry =>
    if carry = 0 ∧ length = 0 then (d :: ds, 0, 0)
    else
      let r := mulAdd base mul ds (length - 1) ((carry + mul * d) / base)
      ((carry + mul * d) % base :: r.1, r.2.1 + 1, r.2.2)

/-- The digits that are not in use are zero. -/
def ZeroAbove (length : ℕ) (ds : List ℕ) : Prop := ∀ d ∈ ds.drop length, d = 0

variable {base mul length : ℕ} {ds : List ℕ}

theorem ZeroAbove.ofDigits_eq_zero (h : ZeroAbove 0 ds) : Nat.ofDigits base ds = 0 := by
  have hds : ds = List.replicate ds.length 0 :=
    List.eq_replicate_iff.mpr ⟨rfl, by simpa [ZeroAbove] using h⟩
  rw [hds, Nat.ofDigits_replicate_zero]

theorem ZeroAbove.tail {d : ℕ} (h : ZeroAbove length (d :: ds)) :
    ZeroAbove (length - 1) ds := by
  cases length with
  | zero => exact fun e he => h e (List.mem_cons_of_mem _ (List.mem_of_mem_drop he))
  | succ n => exact h

/-- The buffer keeps its length. -/
theorem length_mulAdd (ds : List ℕ) (length carry : ℕ) :
    (mulAdd base mul ds length carry).1.length = ds.length := by
  induction ds generalizing length carry with
  | nil => rfl
  | cons d ds ih =>
    unfold mulAdd
    split_ifs
    · rfl
    · simp [ih]

/-- Above the digits in use there are zeros, after the pass as before. -/
theorem zeroAbove_mulAdd (carry : ℕ) (h : ZeroAbove length ds) :
    ZeroAbove (mulAdd base mul ds length carry).2.1 (mulAdd base mul ds length carry).1 := by
  induction ds generalizing length carry with
  | nil => exact fun d hd => by simp [mulAdd] at hd
  | cons d ds ih =>
    unfold mulAdd
    split_ifs with hc
    · exact hc.2 ▸ h
    · exact ih _ h.tail

/-- **What one pass computes**: the number times `mul` plus the digit, split between the
buffer and the carry. -/
theorem ofDigits_mulAdd (carry : ℕ) (h : ZeroAbove length ds) :
    Nat.ofDigits base (mulAdd base mul ds length carry).1 +
        base ^ ds.length * (mulAdd base mul ds length carry).2.2 =
      mul * Nat.ofDigits base ds + carry := by
  induction ds generalizing length carry with
  | nil => simp [mulAdd]
  | cons d ds ih =>
    unfold mulAdd
    split_ifs with hc
    · have hz : Nat.ofDigits base (d :: ds) = 0 := (hc.2 ▸ h).ofDigits_eq_zero
      simp [hz, hc.1]
    · have ih' := ih ((carry + mul * d) / base) h.tail
      have hdiv := Nat.mod_add_div (carry + mul * d) base
      simp only [Nat.ofDigits_cons, List.length_cons]
      calc _ = (carry + mul * d) % base + base *
            (Nat.ofDigits base (mulAdd base mul ds (length - 1) ((carry + mul * d) / base)).1 +
              base ^ ds.length *
                (mulAdd base mul ds (length - 1) ((carry + mul * d) / base)).2.2) := by ring
        _ = (carry + mul * d) % base + base * ((carry + mul * d) / base) +
              base * (mul * Nat.ofDigits base ds) := by rw [ih']; ring
        _ = _ := by rw [hdiv]; ring

/-- A buffer that can hold the new number leaves no carry. -/
theorem carry_eq_zero {carry : ℕ} (h : ZeroAbove length ds)
    (hlt : mul * Nat.ofDigits base ds + carry < base ^ ds.length) :
    (mulAdd base mul ds length carry).2.2 = 0 := by
  have hsum : Nat.ofDigits base (mulAdd base mul ds length carry).1 +
      base ^ ds.length * (mulAdd base mul ds length carry).2.2 =
        mul * Nat.ofDigits base ds + carry := ofDigits_mulAdd carry h
  by_contra hne
  have hle : base ^ ds.length ≤ base ^ ds.length * (mulAdd base mul ds length carry).2.2 :=
    Nat.le_mul_of_pos_right _ (Nat.pos_of_ne_zero hne)
  omega

/-- **The buffer is long enough**: where `p` digits of one radix fit in `q` of the other, `n`
digits fit in `n * q / p + 1`. -/
theorem pow_le_pow_of_rate {a b p q : ℕ} (hp : 0 < p) (hb : 1 < b) (hrate : a ^ p < b ^ q)
    (n : ℕ) : a ^ n ≤ b ^ (n * q / p + 1) := by
  have hexp : q * n ≤ (n * q / p + 1) * p := by
    have h := Nat.div_add_mod (n * q) p
    have hlt := Nat.mod_lt (n * q) hp
    rw [Nat.mul_comm q n, Nat.succ_mul, Nat.mul_comm (n * q / p) p]
    omega
  have hpow : (a ^ n) ^ p ≤ (b ^ (n * q / p + 1)) ^ p := by
    calc (a ^ n) ^ p = (a ^ p) ^ n := by rw [← pow_mul, ← pow_mul, Nat.mul_comm]
      _ ≤ (b ^ q) ^ n := Nat.pow_le_pow_left hrate.le n
      _ = b ^ (q * n) := (pow_mul b q n).symm
      _ ≤ b ^ ((n * q / p + 1) * p) := Nat.pow_le_pow_right (by omega) hexp
      _ = (b ^ (n * q / p + 1)) ^ p := pow_mul b _ p
  exact (Nat.pow_le_pow_iff_left (by omega)).mp hpow

end Radix
