import Passion.Common.Codec
import Passion.Common.Limbs

/-!
# `base_uint` and `uint256`

The fixed-width unsigned integers of `arith_uint256.h`: an array of 32-bit limbs, least significant
first, with the limb loops of `arith_uint256.cpp`, and the compact encoding of difficulty targets of
`uint256.cpp`. Each operation is followed by the number it computes.
-/

namespace Passion

open Limbs

/-- `base_uint<BITS>` with `WIDTH = BITS / 32`. -/
structure BaseUint (WIDTH : ℕ) where
  pn : List (BitVec 32)
  length_pn : pn.length = WIDTH
  deriving DecidableEq

/-- `uint256`. -/
abbrev Uint256 := BaseUint 8

namespace BaseUint

variable {WIDTH : ℕ}

/-- The number the limbs denote. -/
def toNat (a : BaseUint WIDTH) : ℕ := Limbs.value a.pn

variable {a b : BaseUint WIDTH}

theorem toNat_injective (h : a.toNat = b.toNat) : a = b := by
  obtain ⟨as, ha⟩ := a
  obtain ⟨bs, hb⟩ := b
  have : as = bs := value_injective (ha.trans hb.symm) h
  subst this
  rfl

/-- The constructor from a number: limb `i` holds bits `32 * i` to `32 * i + 31`. -/
def limbsOf : ℕ → ℕ → List (BitVec 32)
  | 0, _ => []
  | k + 1, n => BitVec.ofNat 32 n :: limbsOf k (n / 2 ^ 32)

theorem limbsOf_length (k n : ℕ) : (limbsOf k n).length = k := by
  induction k generalizing n with
  | zero => rfl
  | succ k ih => simp [limbsOf, ih]

theorem value_limbsOf (k n : ℕ) : value (limbsOf k n) = n % modulus 32 k := by
  induction k generalizing n with
  | zero => simp [limbsOf, Nat.mod_one]
  | succ k ih =>
    rw [limbsOf, value_cons, ih, modulus_succ, Nat.mod_mul, BitVec.toNat_ofNat]

/-- The number `n` as a `base_uint`: `base_uint(uint64_t)` below `2 ^ 64`, and the value of
a hexadecimal constant (`uint256S`) in general. -/
def ofNat (n : ℕ) : BaseUint WIDTH := ⟨limbsOf WIDTH n, limbsOf_length WIDTH n⟩

@[simp] theorem toNat_ofNat (n : ℕ) :
    (ofNat n : BaseUint WIDTH).toNat = n % 2 ^ (32 * WIDTH) := value_limbsOf WIDTH n

instance : Inhabited (BaseUint WIDTH) := ⟨ofNat 0⟩

/-- `UINT256_ZERO`, and the value of a default-constructed `base_uint`. -/
def zero : BaseUint WIDTH := ofNat 0

@[simp] theorem toNat_zero : (zero : BaseUint WIDTH).toNat = 0 := by simp [zero]

/-- `IsNull`. -/
def isNull (a : BaseUint WIDTH) : Bool := a.pn.all (· == 0#32)

variable (a b)

theorem length_pn_eq : a.pn.length = b.pn.length := a.length_pn.trans b.length_pn.symm

theorem isNull_iff : a.isNull = true ↔ a.toNat = 0 := by
  unfold isNull toNat
  induction a.pn with
  | nil => simp
  | cons x xs ih =>
    rw [List.all_cons, Bool.and_eq_true, ih, beq_iff_eq, ← BitVec.toNat_inj]
    simp

/-- `CompareTo`. -/
def compareTo (a b : BaseUint WIDTH) : Ordering := Limbs.compareTo a.pn b.pn

theorem compareTo_eq : a.compareTo b = compare a.toNat b.toNat :=
  compareTo_eq_compare (length_pn_eq a b)

/-- `operator<`. -/
def lt (a b : BaseUint WIDTH) : Bool := a.compareTo b == .lt

/-- `operator>`. -/
def gt (a b : BaseUint WIDTH) : Bool := a.compareTo b == .gt

@[simp] theorem lt_iff : a.lt b = true ↔ a.toNat < b.toNat := by
  rw [lt, compareTo_eq, beq_iff_eq, Nat.compare_eq_lt]

@[simp] theorem gt_iff : a.gt b = true ↔ b.toNat < a.toNat := by
  rw [gt, compareTo_eq, beq_iff_eq, Nat.compare_eq_gt]

/-- The order of `operator<`, in which a `std::map` keeps its keys. -/
instance : LinearOrder (BaseUint WIDTH) where
  le a b := a.toNat ≤ b.toNat
  lt a b := a.toNat < b.toNat
  le_refl a := Nat.le_refl a.toNat
  le_trans a b c := Nat.le_trans
  le_antisymm a b h h' := toNat_injective (Nat.le_antisymm h h')
  le_total a b := Nat.le_total a.toNat b.toNat
  lt_iff_le_not_ge a b := Nat.lt_iff_le_and_not_ge
  toDecidableLE a b := Nat.decLe a.toNat b.toNat
  toDecidableLT a b := Nat.decLt a.toNat b.toNat
  toDecidableEq := inferInstance

/-- Membership in a list of hashes is decided by comparing them. -/
instance instLawfulBEqUint256 : LawfulBEq Uint256 := inferInstance

/-- `operator^`. -/
def xor (a b : BaseUint WIDTH) : BaseUint WIDTH :=
  ⟨List.zipWith (· ^^^ ·) a.pn b.pn, by simp [a.length_pn, b.length_pn]⟩

/-- `operator~`. -/
def not (a : BaseUint WIDTH) : BaseUint WIDTH :=
  ⟨Limbs.complement a.pn, by simp [Limbs.complement, a.length_pn]⟩

/-- `operator+`. -/
def add (a b : BaseUint WIDTH) : BaseUint WIDTH :=
  ⟨Limbs.addCarry a.pn b.pn 0, by
    rw [Limbs.addCarry_length (length_pn_eq a b), a.length_pn]⟩

theorem toNat_add : (a.add b).toNat = (a.toNat + b.toNat) % 2 ^ (32 * WIDTH) := by
  have h := value_addCarry (length_pn_eq a b) 0
  rw [a.length_pn] at h
  exact h

/-- `operator-`: the two's complement is added. -/
def sub (a b : BaseUint WIDTH) : BaseUint WIDTH :=
  ⟨Limbs.sub a.pn b.pn, by
    rw [Limbs.sub_length (length_pn_eq a b), a.length_pn]⟩

theorem toNat_lt : a.toNat < 2 ^ (32 * WIDTH) := by
  have h := value_lt a.pn
  rwa [a.length_pn] at h

/-- **`operator-=` wraps**: the difference of the numbers modulo `2 ^ BITS`. -/
theorem toNat_sub : ((a.sub b).toNat : ℤ) = ((a.toNat : ℤ) - b.toNat) % 2 ^ (32 * WIDTH) := by
  have h : (a.sub b).toNat = (a.toNat + (2 ^ (32 * WIDTH) - b.toNat)) % 2 ^ (32 * WIDTH) := by
    have h := value_sub_mod (by norm_num) (length_pn_eq a b)
    rw [a.length_pn] at h
    exact h
  rw [h, Int.natCast_mod, Nat.cast_add, Nat.cast_sub b.toNat_lt.le, ← add_sub_assoc,
    add_sub_right_comm]
  simp

/-- `operator*` with a `uint32_t`. -/
def mulUInt32 (a : BaseUint WIDTH) (b32 : UInt32) : BaseUint WIDTH :=
  ⟨Limbs.mulWord b32.toBitVec a.pn 0, by rw [Limbs.mulWord_length, a.length_pn]⟩

theorem toNat_mulUInt32 (b32 : UInt32) :
    (a.mulUInt32 b32).toNat = a.toNat * b32.toNat % 2 ^ (32 * WIDTH) := by
  rw [toNat, mulUInt32, value_mulWord, a.length_pn, Nat.zero_add, Nat.mul_comm]
  rfl

/-- `operator*`. -/
def mul (a b : BaseUint WIDTH) : BaseUint WIDTH :=
  ⟨Limbs.mul a.pn b.pn, by rw [Limbs.mul_length, a.length_pn]⟩

/-- **`operator*=` wraps.** The product of two `base_uint`s is the product of the numbers
modulo `2 ^ BITS`. -/
theorem toNat_mul : (a.mul b).toNat = a.toNat * b.toNat % 2 ^ (32 * WIDTH) := by
  have h := value_mul (length_pn_eq a b)
  rw [a.length_pn] at h
  exact h

/-- `operator<<`. -/
def shiftLeft (a : BaseUint WIDTH) (shift : ℕ) : BaseUint WIDTH :=
  ⟨Limbs.shl a.pn shift, by rw [Limbs.shl_length, a.length_pn]⟩

theorem toNat_shiftLeft (shift : ℕ) :
    (a.shiftLeft shift).toNat = a.toNat * 2 ^ shift % 2 ^ (32 * WIDTH) := by
  rw [toNat, shiftLeft, value_shl (by norm_num), a.length_pn]
  rfl

/-- `operator>>`. -/
def shiftRight (a : BaseUint WIDTH) (shift : ℕ) : BaseUint WIDTH :=
  ⟨Limbs.shr a.pn shift, by rw [Limbs.shr_length, a.length_pn]⟩

theorem toNat_shiftRight (shift : ℕ) : (a.shiftRight shift).toNat = a.toNat / 2 ^ shift :=
  value_shr (by norm_num) shift

/-- `bits`. -/
def bits (a : BaseUint WIDTH) : ℕ := Limbs.bits a.pn

theorem bits_eq_size : a.bits = a.toNat.size := Limbs.bits_eq_size

/-- `operator/`; `none` is the exception `uint_error("Division by zero")`. -/
def div (a b : BaseUint WIDTH) : Option (BaseUint WIDTH) :=
  match Limbs.div a.pn b.pn with
  | none => none
  | some q => if hq : q.length = WIDTH then some ⟨q, hq⟩ else none

variable {a b} in
theorem div_eq_some (hb : b.toNat ≠ 0) : ∃ q, a.div b = some q ∧ q.toNat = a.toNat / b.toNat := by
  obtain ⟨q, hq, hlen, hv⟩ :=
    div_spec (by norm_num) (length_pn_eq a b) hb
  rw [a.length_pn] at hlen
  refine ⟨⟨q, hlen⟩, ?_, hv⟩
  simp [div, hq, dif_pos hlen]

/-- **Long division gives the quotient**, and throws for a zero divisor only. -/
theorem div_map_toNat :
    (a.div b).map toNat = if b.toNat = 0 then none else some (a.toNat / b.toNat) := by
  split_ifs with hb
  · have hbits : Limbs.bits b.pn = 0 := by
      rw [Limbs.bits_eq_size, Nat.size_eq_zero]
      exact hb
    simp [div, Limbs.div, hbits]
  · obtain ⟨q, hq, hv⟩ := div_eq_some hb
    rw [hq, Option.map_some, hv]

/-- **The operators of `uint256` are arithmetic modulo `2 ^ 256`.** -/
theorem uint256_arithmetic (a b : Uint256) (b32 : UInt32) (shift : ℕ) :
    (a.add b).toNat = (a.toNat + b.toNat) % 2 ^ 256 ∧
    ((a.sub b).toNat : ℤ) = ((a.toNat : ℤ) - b.toNat) % 2 ^ 256 ∧
    (a.mul b).toNat = a.toNat * b.toNat % 2 ^ 256 ∧
    (a.mulUInt32 b32).toNat = a.toNat * b32.toNat % 2 ^ 256 ∧
    (a.shiftLeft shift).toNat = a.toNat * 2 ^ shift % 2 ^ 256 ∧
    (a.shiftRight shift).toNat = a.toNat / 2 ^ shift ∧
    a.compareTo b = compare a.toNat b.toNat ∧ a.bits = a.toNat.size ∧
    (a.div b).map toNat = if b.toNat = 0 then none else some (a.toNat / b.toNat) :=
  ⟨toNat_add a b, toNat_sub a b, toNat_mul a b, toNat_mulUInt32 a b32, toNat_shiftLeft a shift,
    toNat_shiftRight a shift, compareTo_eq a b, bits_eq_size a, div_map_toNat a b⟩

/-- `GetLow64`, also `GetCheapHash`: the two low limbs. -/
def getLow64 (a : BaseUint WIDTH) : ℕ := a.toNat % 2 ^ 64

/-- `begin() .. end()`, also the serialization of the type: the bytes of the limb array,
least significant first. -/
def toBytes (a : BaseUint WIDTH) : Bytes := Bytes.ofNatLE (4 * WIDTH) a.toNat

end BaseUint

/-! ## The compact encoding of targets

`SetCompact` of `uint256.cpp`, the number it decodes to, and `GetBlockProof` of `pow.cpp`.
-/

/-- What `SetCompact` leaves: the number and its two flags. -/
structure CompactResult where
  value : Uint256
  fNegative : Bool
  fOverflow : Bool

/-- `SetCompact`. -/
def setCompact (nCompact : UInt32) : CompactResult :=
  let nSize := nCompact.toNat / 2 ^ 24
  let nWord := nCompact.toNat % 2 ^ 23
  let word := if nSize ≤ 3 then nWord / 2 ^ (8 * (3 - nSize)) else nWord
  { value :=
      if nSize ≤ 3 then BaseUint.ofNat word
      else (BaseUint.ofNat nWord : Uint256).shiftLeft (8 * (nSize - 3))
    fNegative := decide (word ≠ 0) && decide (nCompact.toNat / 2 ^ 23 % 2 ≠ 0)
    fOverflow := decide (word ≠ 0) && (decide (nSize > 34) ||
      (decide (word > 0xff) && decide (nSize > 33)) ||
      (decide (word > 0xffff) && decide (nSize > 32))) }

/-- The number a compact encoding stands for, in unbounded integers. -/
def compactTarget (nCompact : UInt32) : ℕ :=
  let nSize := nCompact.toNat / 2 ^ 24
  let nWord := nCompact.toNat % 2 ^ 23
  if nSize ≤ 3 then nWord / 256 ^ (3 - nSize) else nWord * 256 ^ (nSize - 3)

/-- **Without the overflow flag `SetCompact` decodes exactly.** -/
theorem setCompact_toNat {nCompact : UInt32} (h : (setCompact nCompact).fOverflow = false) :
    (setCompact nCompact).value.toNat = compactTarget nCompact := by
  have hword : nCompact.toNat % 2 ^ 23 < 2 ^ 23 := Nat.mod_lt _ (by norm_num)
  simp only [setCompact, compactTarget] at h ⊢
  generalize nCompact.toNat / 2 ^ 24 = nSize at h ⊢
  generalize nCompact.toNat % 2 ^ 23 = nWord at hword h ⊢
  by_cases hsize : nSize ≤ 3
  · rw [if_pos hsize, if_pos hsize, if_pos hsize, BaseUint.toNat_ofNat, pow_mul]
    have hle : nWord / (2 ^ 8) ^ (3 - nSize) ≤ nWord := Nat.div_le_self _ _
    exact Nat.mod_eq_of_lt (by omega)
  · rw [if_neg hsize] at h
    rw [if_neg hsize, if_neg hsize, BaseUint.toNat_shiftLeft, BaseUint.toNat_ofNat,
      Nat.mod_eq_of_lt (show nWord < 2 ^ (32 * 8) by omega), pow_mul]
    refine Nat.mod_eq_of_lt ?_
    rcases Nat.eq_zero_or_pos nWord with h0 | hpos
    · rw [h0, Nat.zero_mul]; exact Nat.two_pow_pos _
    · -- The three bounds of the overflow test, for one, two and three bytes of mantissa.
      simp only [ne_eq, Bool.or_eq_false_iff, Bool.and_eq_false_iff, decide_eq_false_iff_not] at h
      have hbound : ∀ {b s : ℕ}, nWord < 256 ^ b → nSize - 3 ≤ s → b + s = 32 →
          nWord * 256 ^ (nSize - 3) < 2 ^ (32 * 8) := by
        intro b s hb hs hsum
        calc nWord * 256 ^ (nSize - 3) < 256 ^ b * 256 ^ (nSize - 3) :=
              Nat.mul_lt_mul_of_pos_right hb (Nat.pow_pos (by norm_num))
          _ ≤ 256 ^ b * 256 ^ s := Nat.mul_le_mul_left _ (Nat.pow_le_pow_right (by norm_num) hs)
          _ = 256 ^ 32 := by rw [← pow_add, hsum]
          _ = 2 ^ (32 * 8) := by norm_num
      rcases Nat.lt_or_ge 0xffff nWord with hw | hw
      · exact hbound (b := 3) (s := 29) (by omega) (by omega) (by norm_num)
      · rcases Nat.lt_or_ge 0xff nWord with hw' | hw'
        · exact hbound (b := 2) (s := 30) (by omega) (by omega) (by norm_num)
        · exact hbound (b := 1) (s := 31) (by omega) (by omega) (by norm_num)

/-- `GetBlockProof`. The target plus one is never zero (`setCompact_add_one_lt`), so
the division does not throw. -/
def getBlockProof (nBits : UInt32) : Uint256 :=
  let target := setCompact nBits
  if target.fNegative || target.fOverflow || target.value.isNull then BaseUint.zero
  else
    match target.value.not.div (target.value.add (BaseUint.ofNat 1)) with
    | none => BaseUint.zero
    | some q => q.add (BaseUint.ofNat 1)

end Passion
