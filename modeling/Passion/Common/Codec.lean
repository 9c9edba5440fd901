import Mathlib.Data.List.Induction
import Mathlib.Data.Nat.ModEq
import Mathlib.Tactic.Ring

/-!
# Little-endian byte strings

Fixed-width little-endian encoding of numbers and the number a byte string denotes.
-/

/-- A byte string. -/
abbrev Bytes := List UInt8

namespace Bytes

/-- The low `k` bytes of `n`, least significant first. -/
def ofNatLE : ℕ → ℕ → Bytes
  | 0, _ => []
  | k + 1, n => UInt8.ofNat n :: ofNatLE k (n / 256)

@[simp] theorem ofNatLE_length (k n : ℕ) : (ofNatLE k n).length = k := by
  induction k generalizing n with
  | zero => rfl
  | succ k ih => simp [ofNatLE, ih]

/-- The number a byte string denotes, least significant byte first. -/
def toNatLE : Bytes → ℕ
  | [] => 0
  | b :: bs => b.toNat + 256 * toNatLE bs

theorem toNatLE_ofNatLE (k n : ℕ) : toNatLE (ofNatLE k n) = n % 256 ^ k := by
  induction k generalizing n with
  | zero => simp [ofNatLE, toNatLE, Nat.mod_one]
  | succ k ih =>
    rw [ofNatLE, toNatLE, ih, pow_succ, Nat.mul_comm (256 ^ k), Nat.mod_mul, UInt8.toNat_ofNat']

/-- Two numbers that fit are told apart by their bytes. -/
theorem ofNatLE_injective {k m n : ℕ} (hm : m < 256 ^ k) (hn : n < 256 ^ k)
    (h : ofNatLE k m = ofNatLE k n) : m = n := by
  have hmn := congrArg toNatLE h
  rwa [toNatLE_ofNatLE, toNatLE_ofNatLE, Nat.mod_eq_of_lt hm, Nat.mod_eq_of_lt hn] at hmn

theorem toNatLE_concat (t : Bytes) (c : UInt8) :
    toNatLE (t ++ [c]) = toNatLE t + c.toNat * 256 ^ t.length := by
  induction t with
  | nil => simp [toNatLE]
  | cons b t ih =>
    rw [List.cons_append, toNatLE, ih, toNatLE, List.length_cons]
    ring

theorem toNatLE_lt (t : Bytes) : toNatLE t < 256 ^ t.length := by
  induction t with
  | nil => decide
  | cons b t ih =>
    have hb := b.toNat_lt
    rw [toNatLE, List.length_cons, pow_succ]
    omega

end Bytes

/-! ## Variable-length numbers

Numbers written seven bits in a byte, most significant first, each continued group standing
for one more than its digits. Every number has one code, and every code is that of a number.
-/

namespace VarInt

open List

/-- The groups above the last one, in front of the bytes already made. -/
def high : ℕ → ℕ → Bytes → Bytes
  | 0, _, acc => acc
  | fuel + 1, n, acc =>
    let acc := UInt8.ofNat (n % 128 + 128) :: acc
    if n ≤ 0x7f then acc else high fuel (n / 128 - 1) acc

/-- The bytes of a number below `128 ^ 10`. -/
def write (n : ℕ) : Bytes :=
  if n ≤ 0x7f then [UInt8.ofNat n]
  else high 10 (n / 128 - 1) [UInt8.ofNat (n % 128)]

/-- The number that continued groups lead to from another one. -/
def aboveFrom (n : ℕ) (t : Bytes) : ℕ := t.foldl (fun n b => n * 128 + b.toNat % 128 + 1) n

/-- The number that continued groups stand for. -/
def above (t : Bytes) : ℕ := aboveFrom 0 t

/-- **The form of a code**: the top bit is clear in the last byte only. -/
def IsCode (s : Bytes) : Prop :=
  ∃ t c, s = t ++ [c] ∧ (∀ b ∈ t, 128 ≤ b.toNat) ∧ c.toNat < 128

/-- The number that a code stands for. -/
def value (s : Bytes) : ℕ := above s.dropLast * 128 + (s.getLastD 0).toNat

variable {t s : Bytes} {c b : UInt8}

theorem above_concat : above (t ++ [b]) = above t * 128 + b.toNat % 128 + 1 := by
  simp [above, aboveFrom]

theorem value_concat : value (t ++ [c]) = above t * 128 + c.toNat := by
  simp [value]

theorem le_aboveFrom (n : ℕ) (t : Bytes) : n ≤ aboveFrom n t := by
  induction t generalizing n with
  | nil => exact le_refl n
  | cons b t ih =>
    have hle : n ≤ n * 128 + b.toNat % 128 + 1 := by omega
    exact hle.trans (ih _)

/-- The number of a code without its last byte. -/
theorem above_rest {m : ℕ} (hm : m < 128) : ¬ above (t ++ [b]) * 128 + m ≤ 0x7f ∧
    (above (t ++ [b]) * 128 + m) / 128 - 1 = above t * 128 + b.toNat % 128 := by
  rw [above_concat]
  omega

/-- The byte of a continued group. -/
theorem ofNat_group {n : ℕ} (hb : 128 ≤ b.toNat) :
    UInt8.ofNat ((n * 128 + b.toNat % 128) % 128 + 128) = b := by
  have hlt := b.toNat_lt
  apply UInt8.toNat_inj.mp
  rw [UInt8.toNat_ofNat']
  omega

/-- Every number is that of some groups. -/
theorem exists_above (n : ℕ) : ∃ t : Bytes, (∀ b ∈ t, 128 ≤ b.toNat) ∧ above t = n := by
  induction n using Nat.strong_induction_on with
  | h n ih =>
    rcases Nat.eq_zero_or_pos n with rfl | hpos
    · exact ⟨[], by simp, rfl⟩
    · obtain ⟨t, ht, habove⟩ := ih ((n - 1) / 128) (by omega)
      have hb : (UInt8.ofNat ((n - 1) % 128 + 128)).toNat = (n - 1) % 128 + 128 := by
        rw [UInt8.toNat_ofNat']
        omega
      refine ⟨t ++ [UInt8.ofNat ((n - 1) % 128 + 128)], fun b hmem => ?_, ?_⟩
      · rcases mem_append.mp hmem with hmem | hmem
        · exact ht b hmem
        · rw [mem_singleton.mp hmem, hb]
          omega
      · rw [above_concat, habove, hb]
        omega

/-- Every number has a code. -/
theorem exists_code (n : ℕ) : ∃ s, IsCode s ∧ value s = n := by
  obtain ⟨t, ht, habove⟩ := exists_above (n / 128)
  have hc : (UInt8.ofNat (n % 128)).toNat = n % 128 := by
    rw [UInt8.toNat_ofNat']
    omega
  refine ⟨_, ⟨t, UInt8.ofNat (n % 128), rfl, ht, by omega⟩, ?_⟩
  rw [value_concat, habove, hc]
  omega

/-- Many groups make a great number. -/
theorem pow_length_le (t : Bytes) : 128 ^ t.length ≤ 127 * above t + 1 := by
  induction t using reverseRecOn with
  | nil => simp
  | append_singleton t b ih =>
    rw [length_append, length_singleton, pow_succ, above_concat]
    omega

/-- The loop writes the groups it is at. -/
theorem high_above {fuel : ℕ} {acc : Bytes} (ht : ∀ x ∈ t, 128 ≤ x.toNat) (hb : 128 ≤ b.toNat)
    (hfuel : t.length < fuel) : high fuel (above t * 128 + b.toNat % 128) acc = t ++ b :: acc := by
  induction t using reverseRecOn generalizing fuel b acc with
  | nil =>
    obtain ⟨fuel, rfl⟩ := Nat.exists_eq_succ_of_ne_zero (Nat.ne_of_gt hfuel)
    have hlt : above [] * 128 + b.toNat % 128 ≤ 0x7f := by
      simp only [above, aboveFrom, foldl_nil]
      omega
    rw [high, if_pos hlt, ofNat_group hb]
    rfl
  | append_singleton t x ih =>
    obtain ⟨fuel, rfl⟩ := Nat.exists_eq_succ_of_ne_zero (Nat.ne_zero_of_lt hfuel)
    have hx : 128 ≤ x.toNat := ht x (by simp)
    obtain ⟨hmore, hnext⟩ := above_rest (t := t) (b := x) (Nat.mod_lt b.toNat (by decide))
    rw [high, if_neg hmore, ofNat_group hb, hnext,
      ih (fun y hy => ht y (by simp [hy])) hx (by simpa using hfuel), append_assoc]
    rfl

/-- **The code of a number is what is written for it.** -/
theorem write_value (hs : IsCode s) (hlt : value s < 2 ^ 64) : write (value s) = s := by
  obtain ⟨t, c, rfl, ht, hc⟩ := hs
  rw [value_concat] at hlt ⊢
  have hlast : UInt8.ofNat ((above t * 128 + c.toNat) % 128) = c := by
    apply UInt8.toNat_inj.mp
    rw [UInt8.toNat_ofNat']
    omega
  unfold write
  induction t using reverseRecOn with
  | nil =>
    have hsmall : above [] * 128 + c.toNat ≤ 0x7f := by
      simp only [above, aboveFrom, foldl_nil]
      omega
    rw [if_pos hsmall]
    simp [above, aboveFrom]
  | append_singleton t b _ =>
    have hpow := pow_length_le (t ++ [b])
    have hlen : t.length < 10 := by
      by_contra hlong
      have hbig : 128 ^ 10 ≤ 128 ^ (t ++ [b]).length :=
        Nat.pow_le_pow_right (by omega) (by rw [length_append]; omega)
      omega
    obtain ⟨hmore, hnext⟩ := above_rest (t := t) (b := b) hc
    rw [if_neg hmore, hlast, hnext, high_above (fun x hx => ht x (by simp [hx])) (ht b (by simp))
      hlen, append_assoc]
    rfl

end VarInt
