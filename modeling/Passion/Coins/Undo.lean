import Passion.Coins.View

/-!
# Undo records

The serialization of undo records (`undo.h`) with the compressed outputs of
`compressor.h`, and the undo files that `validation.cpp` writes.
-/

namespace Passion

open Opcode

/-! ## Amounts -/

/-- The loop of `CompressAmount` that takes out factors of ten: the number left and their
count. -/
def stripTens : ℕ → ℕ → ℕ → ℕ × ℕ
  | 0, n, e => (n, e)
  | fuel + 1, n, e => if n % 10 = 0 then stripTens fuel (n / 10) (e + 1) else (n, e)

/-- `CompressAmount`, on `uint64_t`. -/
def compressAmount (n : ℕ) : ℕ :=
  if n = 0 then 0
  else
    let (n, e) := stripTens 9 n 0
    if e < 9 then (1 + (n / 10 * 9 + n % 10 - 1) * 10 + e) % 2 ^ 64
    else (1 + (n - 1) * 10 + 9) % 2 ^ 64

/-- A `CAmount` as `uint64_t`. -/
def amountBits (n : ℤ) : ℕ := (n % 2 ^ 64).toNat

/-! ## Scripts -/

/-- `nSpecialScripts`. -/
def nSpecialScripts : ℕ := 6

variable (E : Env)

/-- `CScriptCompressor::Compress`. A key in full is compressed only if it is fully valid. -/
def compressScript (script : CScript) : Option Bytes :=
  if CScript.isPayToPublicKeyHash script then some (0 :: (script.drop 3).take 20)
  else if CScript.isPayToScriptHash script then some (1 :: (script.drop 2).take 20)
  else if script.length == 35 && script[0]? == some 33 && script[34]? == some OP_CHECKSIG &&
      (script[1]? == some 2 || script[1]? == some 3) then
    some ((script.drop 1).take 33)
  else if script.length == 67 && script[0]? == some 65 && script[66]? == some OP_CHECKSIG &&
      script[1]? == some 4 && E.pubKeyIsFullyValid ((script.drop 1).take 65) then
    some ((4 ||| (((script.drop 1).take 65).getLastD 0 &&& 1)) :: (script.drop 2).take 32)
  else none

/-- `CScriptCompressor::Serialize`. -/
def writeScript (script : CScript) : Bytes :=
  match compressScript E script with
  | some compr => compr
  | none => VarInt.write (script.length + nSpecialScripts) ++ script

/-! ## Records -/

/-- The number that holds the height and the flags of a coin, a `uint32_t`. -/
def Coin.code (c : Coin) : ℕ :=
  (c.nHeight * 4 + (if c.fCoinBase then 2 else 0) + (if c.fCoinStake then 1 else 0)) % 2 ^ 32

/-- `CTxOutCompressor`, writing. -/
def writeTxOut (out : CTxOut) : Bytes :=
  VarInt.write (compressAmount (amountBits out.nValue)) ++ writeScript E out.scriptPubKey

/-- `TxInUndoSerializer`, with its dummy byte for a height that is not zero. -/
def writeTxInUndo (c : Coin) : Bytes :=
  VarInt.write c.code ++ (if c.nHeight > 0 then [0] else []) ++ writeTxOut E c.out

/-- `CTxUndo::Serialize`. -/
def writeTxUndo (vprevout : List Coin) : Bytes :=
  vectorBytes (writeTxInUndo E) vprevout

/-- The serialization of `CBlockUndo`. -/
def writeBlockUndo (vtxundo : List (List Coin)) : Bytes := vectorBytes (writeTxUndo E) vtxundo

/-- `UndoWriteToDisk`: the record and the checksum that binds it to the parent block. -/
def undoWriteToDisk (blockundo : List (List Coin)) (hashBlock : Uint256) : Bytes :=
  let b := writeBlockUndo E blockundo
  b ++ (E.hash (hashBlock.toBytes ++ b)).toBytes

/-! ## Compressed amounts

`CompressAmount` and `DecompressAmount` of `compressor.cpp`, operation by operation. Every result
of a 64-bit operation goes through `word`: it is reduced, or refused if it does not fit. `none`
also stands for a failed assertion.
-/

/-- A `uint64_t` keeps the low bits of a result. -/
def wrapping (n : ℕ) : Option ℕ := some (n % 2 ^ 64)

/-- `none` is an overflow. -/
def checked (n : ℕ) : Option ℕ := if n < 2 ^ 64 then some n else none

section

variable (word : ℕ → Option ℕ)

/-- `CompressAmount`, operation by operation; `compressAmount` reduces once, at the end. -/
def compressAmountBy (n : ℕ) : Option ℕ :=
  if n = 0 then some 0
  else
    let (n, e) := stripTens 9 n 0
    if e < 9 then do
      let d := n % 10
      guard (1 ≤ d ∧ d ≤ 9)
      let x ← word (n / 10 * 9)
      let x ← word (x + d)
      let x ← word ((x - 1) * 10)
      let x ← word (1 + x)
      word (x + e)
    else do
      let x ← word ((n - 1) * 10)
      let x ← word (1 + x)
      word (x + 9)

/-- The last loop of `DecompressAmount`. -/
def timesTens : ℕ → ℕ → Option ℕ
  | 0, n => some n
  | e + 1, n => word (n * 10) >>= timesTens e

/-- `DecompressAmount`. -/
def decompressAmount (x : ℕ) : Option ℕ :=
  if x = 0 then some 0
  else
    let e := (x - 1) % 10
    let x := (x - 1) / 10
    if e < 9 then do
      let n ← word (x / 9 * 10)
      let n ← word (n + (x % 9 + 1))
      timesTens word e n
    else word (x + 1) >>= timesTens word e

end

theorem stripTens_spec (fuel n e : ℕ) (hn : 0 < n) : ∃ m k, stripTens fuel n e = (m, e + k) ∧
    n = m * 10 ^ k ∧ k ≤ fuel ∧ (k < fuel → m % 10 ≠ 0) := by
  induction fuel generalizing n e with
  | zero => exact ⟨n, 0, rfl, by simp, le_rfl, by omega⟩
  | succ fuel ih =>
    rw [stripTens]
    by_cases h10 : n % 10 = 0
    · rw [if_pos h10]
      obtain ⟨m, k, heq, hm, hk, hlast⟩ := ih (n / 10) (e + 1) (by omega)
      refine ⟨m, k + 1, by rw [heq, Nat.add_assoc, Nat.add_comm 1], ?_, by omega,
        fun h => hlast (by omega)⟩
      rw [pow_succ, ← Nat.mul_assoc]
      omega
    · rw [if_neg h10]
      exact ⟨n, 0, rfl, by simp, by omega, fun _ => h10⟩

variable {word : ℕ → Option ℕ} (hword : ∀ n < 2 ^ 64, word n = some n)

include hword

theorem timesTens_eq {e n : ℕ} (h : n * 10 ^ e < 2 ^ 64) :
    timesTens word e n = some (n * 10 ^ e) := by
  induction e generalizing n with
  | zero => simp [timesTens]
  | succ e ih =>
    rw [pow_succ', ← mul_assoc] at h ⊢
    have hle := Nat.le_mul_of_pos_right (n * 10) (Nat.pow_pos (n := e) (show 0 < 10 by norm_num))
    rw [timesTens, hword _ (by omega)]
    exact ih h

/-- **An amount is compressed without loss and without overflow**, far beyond the money range. -/
theorem decompressAmount_compressAmount {n : ℕ} (hn : n < 2 ^ 60) :
    compressAmountBy word n = some (compressAmount n) ∧
      decompressAmount word (compressAmount n) = some n := by
  unfold compressAmountBy compressAmount
  split_ifs with hzero
  · exact ⟨rfl, by simp [decompressAmount, hzero]⟩
  obtain ⟨m, k, heq, hm, hk, hlast⟩ := stripTens_spec 9 n 0 (by omega)
  have hle : m ≤ n := hm ▸ Nat.le_mul_of_pos_right m (Nat.pow_pos (by norm_num))
  have htens := timesTens_eq hword (hm ▸ hn.trans (by norm_num))
  rw [← hm] at htens
  simp only [heq, Nat.zero_add, Option.bind_eq_bind]
  split_ifs with hk9
  · have hd : 1 ≤ m % 10 ∧ m % 10 ≤ 9 := by
      have := hlast hk9
      omega
    simp (disch := omega) only [guard, if_pos hd, pure, hword, Option.bind_some]
    rw [Nat.mod_eq_of_lt (b := 2 ^ 64) (by omega)]
    refine ⟨rfl, ?_⟩
    have he : (1 + (m / 10 * 9 + m % 10 - 1) * 10 + k - 1) % 10 = k := by omega
    have hx : (1 + (m / 10 * 9 + m % 10 - 1) * 10 + k - 1) / 10 = m / 10 * 9 + m % 10 - 1 := by
      omega
    have hn : (m / 10 * 9 + m % 10 - 1) / 9 * 10 + ((m / 10 * 9 + m % 10 - 1) % 9 + 1) = m := by
      omega
    rw [decompressAmount, if_neg (by omega)]
    simp (disch := omega) only [he, hx, hword, if_pos hk9, Option.bind_eq_bind, Option.bind_some]
    rw [hn, htens]
  · obtain rfl : k = 9 := by omega
    simp (disch := omega) only [hword, Option.bind_some]
    rw [Nat.mod_eq_of_lt (by omega)]
    refine ⟨rfl, ?_⟩
    have he : (1 + (m - 1) * 10 + 9 - 1) % 10 = 9 := by omega
    have hx : (1 + (m - 1) * 10 + 9 - 1) / 10 + 1 = m := by omega
    rw [decompressAmount]
    simp only [he, hx, if_neg hk9]
    rw [hword _ (by omega)]
    exact htens

omit hword

/-- **Compression is a bijection on the money range**, and no operation overflows. -/
theorem compressAmount_bijective :
    (∀ n : ℕ, n ≤ mainParams.consensus.nMaxMoneyOut →
      decompressAmount wrapping (compressAmount n) = some n ∧
      compressAmountBy checked n = some (compressAmount n) ∧
      decompressAmount checked (compressAmount n) = some n) ∧
    ∀ x, (∃ n : ℕ, n ≤ mainParams.consensus.nMaxMoneyOut ∧ compressAmount n = x) →
      (decompressAmount wrapping x).map compressAmount = some x := by
  have hchecked : ∀ n < 2 ^ 64, checked n = some n := fun n hn => if_pos hn
  have hwrapping : ∀ n < 2 ^ 64, wrapping n = some n := fun n hn => by
    rw [wrapping, Nat.mod_eq_of_lt hn]
  have hsmall : ∀ {n : ℕ}, n ≤ mainParams.consensus.nMaxMoneyOut → n < 2 ^ 60 := fun {n} hn => by
    have hmax : mainParams.consensus.nMaxMoneyOut = 10 ^ 16 := rfl
    omega
  refine ⟨fun n hn => ?_, ?_⟩
  · exact ⟨(decompressAmount_compressAmount hwrapping (hsmall hn)).2,
      decompressAmount_compressAmount hchecked (hsmall hn)⟩
  · rintro x ⟨n, hn, rfl⟩
    rw [(decompressAmount_compressAmount hwrapping (hsmall hn)).2]
    rfl

/-! ## Reading variable-length integers

`ReadVarInt` of `serialize.h` for `uint64_t`, the way back from `WriteVarInt`. It throws where
the next group would leave the type.
-/

open VarInt List

/-- What `ReadVarInt` throws. -/
def varIntTooLarge : Failure := .exception "ReadVarInt(): size too large"

/-- The loop of `ReadVarInt<uint64_t>`, from the number read so far: the number and what is left
of the stream. -/
def readVarIntFrom : ℕ → Bytes → Result (ℕ × Bytes)
  | _, [] => .error (.exception "CDataStream::read(): end of data")
  | n, chData :: is =>
    if n > (2 ^ 64 - 1) / 128 then .error varIntTooLarge
    else
      let n := n * 128 + chData.toNat % 128
      -- `chData & 0x80`
      if 0x80 ≤ chData.toNat then
        if n = 2 ^ 64 - 1 then .error varIntTooLarge else readVarIntFrom (n + 1) is
      else .ok (n, is)

/-- `ReadVarInt<uint64_t>`. -/
def readVarInt (is : Bytes) : Result (ℕ × Bytes) := readVarIntFrom 0 is

/-- **What the loop makes of a code**: its number, if the type holds it. -/
theorem readVarIntFrom_code {t : Bytes} {c : UInt8} (ht : ∀ b ∈ t, 128 ≤ b.toNat)
    (hc : c.toNat < 128) (n : ℕ) (rest : Bytes) :
    readVarIntFrom n (t ++ c :: rest) =
      if aboveFrom n t * 128 + c.toNat < 2 ^ 64 then .ok (aboveFrom n t * 128 + c.toNat, rest)
      else .error varIntTooLarge := by
  induction t generalizing n with
  | nil =>
    rw [nil_append, readVarIntFrom, if_neg (by omega : ¬ 0x80 ≤ c.toNat),
      show aboveFrom n [] = n from rfl, Nat.mod_eq_of_lt hc]
    by_cases hbig : n > (2 ^ 64 - 1) / 128
    · rw [if_pos hbig, if_neg (by omega)]
    · rw [if_neg hbig, if_pos (by omega)]
  | cons b t ih =>
    have hb : 0x80 ≤ b.toNat := ht b mem_cons_self
    have hle := le_aboveFrom (n * 128 + b.toNat % 128 + 1) t
    rw [cons_append, readVarIntFrom, if_pos hb,
      show aboveFrom n (b :: t) = aboveFrom (n * 128 + b.toNat % 128 + 1) t from rfl]
    by_cases hbig : n > (2 ^ 64 - 1) / 128
    · rw [if_pos hbig, if_neg (by omega)]
    · rw [if_neg hbig]
      by_cases hmax : n * 128 + b.toNat % 128 = 2 ^ 64 - 1
      · rw [if_pos hmax, if_neg (by omega)]
      · rw [if_neg hmax]
        exact ih (fun x hx => ht x (mem_cons_of_mem _ hx)) _

theorem readVarInt_code {s : Bytes} (hs : IsCode s) (rest : Bytes) :
    readVarInt (s ++ rest) =
      if value s < 2 ^ 64 then .ok (value s, rest) else .error varIntTooLarge := by
  obtain ⟨t, c, rfl, ht, hc⟩ := hs
  rw [append_assoc, value_concat]
  exact readVarIntFrom_code ht hc 0 rest

/-- What is written is a code of the number. -/
theorem exists_code_write (n : UInt64) :
    IsCode (write n.toNat) ∧ value (write n.toNat) = n.toNat := by
  obtain ⟨s, hs, hn⟩ := exists_code n.toNat
  have hwrite := write_value hs (hn ▸ n.toNat_lt)
  rw [hn] at hwrite
  exact hwrite ▸ ⟨hs, hn⟩

theorem readVarInt_write (n : UInt64) (rest : Bytes) :
    readVarInt (write n.toNat ++ rest) = .ok (n.toNat, rest) := by
  obtain ⟨hcode, hn⟩ := exists_code_write n
  rw [readVarInt_code hcode, hn, if_pos n.toNat_lt]

/-- No code is a prefix of another one. -/
theorem eq_of_write_isPrefix {m n : UInt64} (h : write m.toNat <+: write n.toNat) : m = n := by
  obtain ⟨rest, hrest⟩ := h
  have hm := readVarInt_write m rest
  have hn := readVarInt_write n []
  rw [append_nil, ← hrest, hm, Except.ok.injEq, Prod.mk.injEq] at hn
  exact UInt64.toNat_inj.mp hn.1

/-- **Variable-length integers are a bijection**: a number is read back from its code, no code is
a prefix of another one, and a byte string of the form of a code is the code of one number, or
throws if the type does not hold its number. -/
theorem varInt_bijective :
    (∀ (n : UInt64) rest, readVarInt (write n.toNat ++ rest) = .ok (n.toNat, rest)) ∧
    (∀ m n : UInt64, write m.toNat <+: write n.toNat → m = n) ∧
    (∀ s, IsCode s → value s < 2 ^ 64 → ∃! n : UInt64, write n.toNat = s) ∧
    ∀ s rest, IsCode s → 2 ^ 64 ≤ value s →
      readVarInt (s ++ rest) = .error varIntTooLarge := by
  refine ⟨readVarInt_write, fun m n => eq_of_write_isPrefix, fun s hs hlt => ?_,
    fun s rest hs hle => ?_⟩
  · have hval : (UInt64.ofNat (value s)).toNat = value s := UInt64.toNat_ofNat_of_lt hlt
    have hwrite : write (UInt64.ofNat (value s)).toNat = s := by
      rw [hval]
      exact write_value hs hlt
    exact ⟨_, hwrite, fun n hn => eq_of_write_isPrefix (hn.trans hwrite.symm ▸ prefix_rfl)⟩
  · rw [readVarInt_code hs, if_neg (Nat.not_lt.mpr hle)]

end Passion
