import Passion.Common.Radix
import Passion.Primitives.Transaction

/-!
# Base58 addresses

`EncodeBase58`, `DecodeBase58` and their checked forms, `EncodeDestination`, `DecodeDestination` and
`DecodeSecret` of `base58.cpp`. The strings are byte strings; the decoder takes them as C strings,
up to the first zero byte. Both directions work in a buffer whose size is computed from the length
of the input, and assert that no carry is left.
-/

namespace Passion

open Radix List

/-- `std::string`. -/
abbrev StdString := Bytes

/-- The bytes of a text. -/
def textBytes (s : String) : StdString := s.toList.map fun c => UInt8.ofNat c.toNat

/-- `pszBase58`. -/
def pszBase58 : StdString :=
  textBytes "123456789ABCDEFGHJKLMNPQRSTUVWXYZabcdefghijkmnopqrstuvwxyz"

/-- `isspace`. -/
def isSpace (c : UInt8) : Bool := c == 0x20 || (decide (0x09 ≤ c) && decide (c ≤ 0x0d))

/-- The character `'1'`. -/
def base58Zero : UInt8 := 0x31

/-- One turn of the loop of either direction, `buffer = buffer * mul + v`, with the assertion
at its end. The buffer is least significant first, as the loop over `rbegin()` sees it; the
second component is `length`. -/
def radixStep (base mul : ℕ) (buffer : List ℕ × ℕ) (v : ℕ) : Result (List ℕ × ℕ) :=
  let r := Radix.mulAdd base mul buffer.1 buffer.2 v
  if r.2.2 ≠ 0 then .error (.assertion "carry == 0") else .ok (r.1, r.2.1)

/-- The digits in use, most significant first, without leading zeros. -/
def usedDigits (buffer : List ℕ × ℕ) : List ℕ :=
  (buffer.1.reverse.drop (buffer.1.length - buffer.2)).dropWhile (· == 0)

/-- The index of a character in `pszBase58`. -/
def base58Digit (c : UInt8) : Option ℕ := pszBase58.idxOf? c

/-- The loop of `DecodeBase58` over the characters up to a space: the buffer and what is
left, or nothing at a character that is not Base58. -/
def decodeLoop : StdString → List ℕ × ℕ → Result (Option ((List ℕ × ℕ) × StdString))
  | [], buffer => .ok (some (buffer, []))
  | c :: cs, buffer =>
    if isSpace c then .ok (some (buffer, c :: cs))
    else match base58Digit c with
      | none => .ok none
      | some v => (radixStep 256 58 buffer v).bind fun buffer => decodeLoop cs buffer

/-- `DecodeBase58`: nothing where it returns `false`. -/
def decodeBase58 (str : StdString) : Result (Option Bytes) :=
  let psz := (str.takeWhile (· != 0)).dropWhile isSpace
  let zeroes := (psz.takeWhile (· == base58Zero)).length
  let psz := psz.dropWhile (· == base58Zero)
  let size := psz.length * 733 / 1000 + 1
  (decodeLoop psz (List.replicate size 0, 0)).bind fun ret =>
    match ret with
    | none => .ok none
    | some (b256, rest) =>
      if (rest.dropWhile isSpace).isEmpty then
        .ok (some (List.replicate zeroes 0 ++ (usedDigits b256).map UInt8.ofNat))
      else .ok none

/-- The loop of `EncodeBase58` over the bytes. -/
def encodeLoop : Bytes → List ℕ × ℕ → Result (List ℕ × ℕ)
  | [], buffer => .ok buffer
  | c :: cs, buffer => (radixStep 58 256 buffer c.toNat).bind fun buffer => encodeLoop cs buffer

/-- `EncodeBase58`. -/
def encodeBase58 (vch : Bytes) : Result StdString :=
  let zeroes := (vch.takeWhile (· == 0)).length
  let vch := vch.dropWhile (· == 0)
  let size := vch.length * 138 / 100 + 1
  (encodeLoop vch (List.replicate size 0, 0)).bind fun b58 =>
    .ok (List.replicate zeroes base58Zero ++ (usedDigits b58).map fun i => pszBase58.getD i 0)

/-- `EncodeBase58Check`. -/
def encodeBase58Check (H : Hashing) (vchIn : Bytes) : Result StdString :=
  encodeBase58 (vchIn ++ (H.hash vchIn).toBytes.take 4)

/-- `DecodeBase58Check`. -/
def decodeBase58Check (H : Hashing) (str : StdString) : Result (Option Bytes) :=
  (decodeBase58 str).bind fun ret =>
    match ret with
    | none => .ok none
    | some vch =>
      if vch.length < 4 then .ok none
      else
        let data := vch.take (vch.length - 4)
        if (H.hash data).toBytes.take 4 ≠ vch.drop (vch.length - 4) then .ok none
        else .ok (some data)

/-- The prefixes of `base58Prefixes` that destinations and secrets use. -/
structure Base58Prefixes where
  PUBKEY_ADDRESS : Bytes
  SCRIPT_ADDRESS : Bytes
  STAKING_ADDRESS : Bytes
  SECRET_KEY : Bytes

/-- The prefixes of `CMainParams`. -/
def mainPrefixes : Base58Prefixes := ⟨[55], [65], [75], [255]⟩

variable (H : Hashing) (P : Base58Prefixes)

/-- `EncodeDestination(dest, isStaking)`. -/
def encodeDestination (dest : CTxDestination) (isStaking : Bool) : Result StdString :=
  match dest with
  | .noDestination => .ok []
  | .keyID id =>
    encodeBase58Check H ((if isStaking then P.STAKING_ADDRESS else P.PUBKEY_ADDRESS) ++ id.val)
  | .scriptID id => encodeBase58Check H (P.SCRIPT_ADDRESS ++ id.val)

/-- The twenty bytes after a prefix, if the data is that prefix and twenty bytes. -/
def hashAfter (pre data : Bytes) : Option (ByteArrayN 20) :=
  if h : data.length = 20 + pre.length ∧ pre.isPrefixOf data then
    some ⟨data.drop pre.length, by rw [List.length_drop]; omega⟩
  else none

/-- `DecodeDestination`. A staking address gives its key id. -/
def decodeDestination (str : StdString) : Result CTxDestination :=
  (decodeBase58Check H str).bind fun ret =>
    match ret with
    | none => .ok .noDestination
    | some data =>
      match hashAfter P.PUBKEY_ADDRESS data, hashAfter P.STAKING_ADDRESS data,
          hashAfter P.SCRIPT_ADDRESS data with
      | some id, _, _ => .ok (.keyID id)
      | none, some id, _ => .ok (.keyID id)
      | none, none, some id => .ok (.scriptID id)
      | none, none, none => .ok .noDestination

/-- `DecodeSecret`: a valid key or none. -/
def decodeSecret (K : KeyOps) (str : StdString) : Result (Option CKey) :=
  (decodeBase58Check H str).bind fun ret =>
    match ret with
    | none => .ok none
    | some data =>
      let pre := P.SECRET_KEY
      let secret := (data.drop pre.length).take 32
      if h : (data.length = 32 + pre.length ∨
          data.length = 33 + pre.length ∧ data.getLast? = some 1) ∧ pre.isPrefixOf data then
        let keydata : ByteArrayN 32 := ⟨secret, by
          rw [List.length_take, List.length_drop]
          omega⟩
        if K.checkSecret keydata then .ok (some ⟨keydata, data.length = 33 + pre.length⟩)
        else .ok none
      else .ok none

/-! ## The assertions hold -/

/-- **A buffer for a number below `bound`**: zeros above the digits in use, and a number that
is below `bound`, which the buffer can hold. -/
structure Holds (base : ℕ) (buffer : List ℕ × ℕ) (bound : ℕ) : Prop where
  zeroAbove : Radix.ZeroAbove buffer.2 buffer.1
  lt : Nat.ofDigits base buffer.1 < bound
  fits : bound ≤ base ^ buffer.1.length

variable {buffer : List ℕ × ℕ}

/-- A turn with a digit below `mul` keeps the number below the next power. -/
theorem Holds.radixStep {base mul k v : ℕ} (h : Holds base buffer (mul ^ k)) (hv : v < mul)
    (hfits : mul ^ (k + 1) ≤ base ^ buffer.1.length) :
    ∃ buffer', radixStep base mul buffer v = .ok buffer' ∧ buffer'.1.length = buffer.1.length ∧
      Holds base buffer' (mul ^ (k + 1)) := by
  have hlt : mul * Nat.ofDigits base buffer.1 + v < mul ^ (k + 1) := by
    have hle := Nat.mul_le_mul_left mul (Nat.succ_le_of_lt h.lt)
    rw [pow_succ']
    rw [Nat.mul_succ] at hle
    omega
  have hcarry : (mulAdd base mul buffer.1 buffer.2 v).2.2 = 0 :=
    carry_eq_zero h.zeroAbove (hlt.trans_le hfits)
  have hval : Nat.ofDigits base (mulAdd base mul buffer.1 buffer.2 v).1 +
      base ^ buffer.1.length * (mulAdd base mul buffer.1 buffer.2 v).2.2 =
        mul * Nat.ofDigits base buffer.1 + v := ofDigits_mulAdd v h.zeroAbove
  have hlen : (mulAdd base mul buffer.1 buffer.2 v).1.length = buffer.1.length :=
    length_mulAdd _ _ _
  refine ⟨((mulAdd base mul buffer.1 buffer.2 v).1,
    (mulAdd base mul buffer.1 buffer.2 v).2.1), ?_, hlen, ?_, ?_, ?_⟩
  · simp [Passion.radixStep, hcarry]
  · exact zeroAbove_mulAdd v h.zeroAbove
  · rw [hcarry] at hval
    simp only [Nat.mul_zero, Nat.add_zero] at hval
    exact hval ▸ hlt
  · exact hlen ▸ hfits

/-- An empty buffer that is long enough. -/
theorem holds_replicate {base mul size n : ℕ} (hmul : 0 < mul)
    (hfits : mul ^ n ≤ base ^ size) : Holds base (List.replicate size 0, 0) (mul ^ 0) where
  zeroAbove := by
    intro d hd
    exact eq_of_mem_replicate (mem_of_mem_drop hd)
  lt := by simp
  fits := by
    rw [length_replicate]
    exact (Nat.pow_le_pow_right hmul (Nat.zero_le n)).trans hfits

theorem encodeLoop_returns {vch : Bytes} {k : ℕ} (h : Holds 58 buffer (256 ^ k))
    (hfits : 256 ^ (k + vch.length) ≤ 58 ^ buffer.1.length) :
    ∃ ret, encodeLoop vch buffer = .ok ret := by
  induction vch generalizing k buffer with
  | nil => exact ⟨_, rfl⟩
  | cons c cs ih =>
    have hpow : 256 ^ (k + 1) ≤ 256 ^ (k + (c :: cs).length) :=
      Nat.pow_le_pow_right (by omega) (by simp)
    obtain ⟨buffer', hstep, hlen, hb⟩ := h.radixStep c.toNat_lt (hpow.trans hfits)
    obtain ⟨ret, hret⟩ := ih hb (by
      rw [hlen, show k + 1 + cs.length = k + (c :: cs).length by simp; omega]
      exact hfits)
    exact ⟨ret, by simp only [encodeLoop, hstep]; exact hret⟩

example : decodeBase58 (textBytes " 112g ") = .ok (some [0, 0, 97]) := by decide +kernel

/-- **Encoding asserts nothing that fails**: 138 Base58 digits hold a hundred bytes. -/
theorem encodeBase58_returns (vch : Bytes) : ∃ str, encodeBase58 vch = .ok str := by
  unfold encodeBase58
  dsimp only
  generalize vch.dropWhile (· == 0) = bytes
  have hfits : 256 ^ bytes.length ≤ 58 ^ (bytes.length * 138 / 100 + 1) :=
    pow_le_pow_of_rate (by omega) (by omega) (by decide +kernel) bytes.length
  have hempty : Holds 58 (replicate (bytes.length * 138 / 100 + 1) 0, 0) (256 ^ 0) :=
    holds_replicate (by omega) hfits
  obtain ⟨ret, hret⟩ : ∃ ret,
      encodeLoop bytes (replicate (bytes.length * 138 / 100 + 1) 0, 0) = .ok ret := by
    refine encodeLoop_returns hempty ?_
    rwa [length_replicate, Nat.zero_add]
  rw [hret]
  exact ⟨_, rfl⟩

example : encodeBase58 [0, 0, 97] = .ok (textBytes "112g") := by decide +kernel

/-- `EncodeDestination` returns. -/
theorem encodeDestination_returns (dest : CTxDestination) (isStaking : Bool) :
    ∃ str, encodeDestination H P dest isStaking = .ok str := by
  cases dest with
  | noDestination => exact ⟨_, rfl⟩
  | keyID id => exact encodeBase58_returns _
  | scriptID id => exact encodeBase58_returns _

end Passion
