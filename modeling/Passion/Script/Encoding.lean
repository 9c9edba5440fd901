import Mathlib.Data.FinEnum
import Passion.Primitives.Transaction

/-!
# Script numbers

`CScriptNum` of `script.h`: an element of the stack read as a number in sign and magnitude,
least significant byte first. A number too long, or not of minimal length where that is asked
for, throws. The way back is `CScript.serializeNum`.
-/

namespace Passion

open List

namespace CScriptNum

/-- `nDefaultMaxNumSize`. -/
def nDefaultMaxNumSize : ℕ := 4

/-- `set_vch`, for at most eight bytes. -/
def setVch (vch : Bytes) : ℤ :=
  match vch.getLast? with
  | none => 0
  | some back =>
    if back &&& 0x80 ≠ 0 then -((Bytes.toNatLE vch : ℤ) - 0x80 * 256 ^ (vch.length - 1))
    else Bytes.toNatLE vch

/-- The test for a minimal encoding: the last byte is not a sign alone, unless the byte before
needs it. -/
def isMinimal (vch : Bytes) : Bool :=
  match vch.reverse with
  | [] => true
  | back :: rest =>
    if back &&& 0x7f ≠ 0 then true
    else match rest with
      | [] => false
      | before :: _ => before &&& 0x80 != 0

/-- `CScriptNum(vch, fRequireMinimal, nMaxNumSize)`: nothing where it throws. -/
def ofVch (vch : Bytes) (fRequireMinimal : Bool) (nMaxNumSize : ℕ) : Option ℤ :=
  if vch.length > nMaxNumSize then none
  else if fRequireMinimal && !isMinimal vch then none
  else some (setVch vch)

/-- `getint`. -/
def getint (value : ℤ) : ℤ :=
  if value > 2 ^ 31 - 1 then 2 ^ 31 - 1 else if value < -2 ^ 31 then -2 ^ 31 else value

/-- The number of a truth value. -/
def ofBool (b : Bool) : ℤ := if b then 1 else 0

/-! ## Every number has one minimal encoding -/

open Bytes CScript

/-- The last byte of a number: the sign, and seven bits of the magnitude. -/
def signByte (neg : Bool) (low : UInt8) : UInt8 := if neg then low ||| 0x80 else low

/-- The magnitude has as few bytes as leave room for the sign. -/
def Fewest (s : Bytes) (low : UInt8) : Prop :=
  low ≠ 0 ∨ ∃ t c, s = t ++ [c] ∧ c &&& 0x80 ≠ 0

variable {s t v : Bytes} {c low : UInt8} {neg : Bool} {n : ℤ}

theorem signByte_spec : ∀ low : UInt8, low &&& 0x80 = 0 → low.toNat < 128 ∧ ∀ neg,
    (signByte neg low &&& 0x80 ≠ 0 ↔ neg = true) ∧ signByte neg low &&& 0x7f = low ∧
      (signByte neg low).toNat = low.toNat + if neg then 0x80 else 0 := by
  decide +kernel

theorem exists_signByte_eq (b : UInt8) : ∃ neg low, low &&& 0x80 = 0 ∧ b = signByte neg low := by
  have hbyte : ∀ b : UInt8, b &&& 0x7f &&& 0x80 = 0 ∧
      b = signByte (decide (b &&& 0x80 ≠ 0)) (b &&& 0x7f) := by decide +kernel
  exact ⟨_, _, hbyte b⟩

theorem toNatLE_concat_pos (hc : c ≠ 0) : 0 < toNatLE (t ++ [c]) := by
  have hpos : 0 < c.toNat := Nat.pos_of_ne_zero fun h => hc (UInt8.toNat_inj.mp h)
  rw [toNatLE_concat]
  exact Nat.add_pos_right _ (Nat.mul_pos hpos (Nat.pow_pos (by decide)))

theorem Fewest.pos (h : Fewest s low) : 0 < toNatLE (s ++ [low]) := by
  rcases h with hlow | ⟨t, c, rfl, hc⟩
  · exact toNatLE_concat_pos hlow
  · rw [toNatLE_concat (t ++ [c])]
    exact Nat.add_pos_left (toNatLE_concat_pos fun h => hc (by rw [h]; rfl)) _

theorem magnitudeBytes_concat {fuel : ℕ} (hc : c ≠ 0) (h : t.length < fuel) :
    magnitudeBytes fuel (toNatLE (t ++ [c])) = t ++ [c] := by
  induction fuel generalizing t with
  | zero => cases h
  | succ k ih =>
    rw [magnitudeBytes, if_neg (toNatLE_concat_pos hc).ne']
    cases t with
    | nil =>
      have hzero : magnitudeBytes k 0 = [] := by cases k <;> rfl
      simp [toNatLE, Nat.div_eq_of_lt c.toNat_lt, hzero]
    | cons b t =>
      have hb : UInt8.ofNat (b.toNat + 256 * toNatLE (t ++ [c])) = b := by
        apply UInt8.toNat_inj.mp
        rw [UInt8.toNat_ofNat', Nat.add_mul_mod_self_left, Nat.mod_eq_of_lt b.toNat_lt]
      rw [cons_append, toNatLE, hb, Nat.add_mul_div_left _ _ (by decide),
        Nat.div_eq_of_lt b.toNat_lt, Nat.zero_add, ih (Nat.lt_of_succ_lt_succ h)]

theorem Fewest.cons (h : Fewest s low) (b : UInt8) : Fewest (b :: s) low :=
  h.imp_right fun ⟨t, c, hs, hc⟩ => ⟨b :: t, c, congrArg (b :: ·) hs, hc⟩

/-- Every magnitude has such bytes. -/
theorem exists_fewest {k m : ℕ} (hpos : 0 < m) (hlt : m < 128 * 256 ^ k) : ∃ s low,
    low &&& 0x80 = 0 ∧ Fewest s low ∧ s.length ≤ k ∧ toNatLE (s ++ [low]) = m := by
  have htop : ∀ m < 256, UInt8.ofNat m &&& 0x80 = 0 ↔ m < 128 := by decide +kernel
  induction m using Nat.strongRecOn generalizing k with
  | ind m ih =>
    have hbyte : toNatLE [UInt8.ofNat m] = m % 256 := by simp [toNatLE]
    by_cases hlow : m < 128
    · refine ⟨[], UInt8.ofNat m, (htop m (by omega)).mpr hlow, .inl fun h => ?_, Nat.zero_le k,
        hbyte.trans (by omega)⟩
      rw [h] at hbyte
      change 0 = _ at hbyte
      omega
    obtain ⟨k, rfl⟩ := Nat.exists_eq_add_one_of_ne_zero (n := k) (by rintro rfl; omega)
    by_cases hsmall : m < 256
    · refine ⟨[UInt8.ofNat m], 0, rfl, .inr ⟨[], _, rfl, fun h => hlow ((htop m hsmall).mp h)⟩,
        by simp, ?_⟩
      rw [toNatLE_concat, hbyte, Nat.mod_eq_of_lt hsmall]
      rfl
    · obtain ⟨s, low, hlow, hfew, hlen, hm⟩ := ih (m / 256) (by omega) (by omega) (k := k)
        (by rw [pow_succ] at hlt; omega)
      refine ⟨UInt8.ofNat m :: s, low, hlow, hfew.cons _, Nat.succ_le_succ hlen, ?_⟩
      rw [cons_append, toNatLE, hm, UInt8.toNat_ofNat', Nat.mod_add_div]

theorem setVch_concat (hlow : low &&& 0x80 = 0) : setVch (s ++ [signByte neg low]) =
    if neg then -(toNatLE (s ++ [low]) : ℤ) else toNatLE (s ++ [low]) := by
  obtain ⟨hneg, -, hval⟩ := (signByte_spec low hlow).2 neg
  rw [setVch, getLast?_concat]
  simp only [hneg, toNatLE_concat, hval, length_append, length_singleton,
    Nat.add_sub_cancel]
  split_ifs
  · push_cast
    ring
  · rfl

theorem isMinimal_concat (hlow : low &&& 0x80 = 0) :
    isMinimal (s ++ [signByte neg low]) = true ↔ Fewest s low := by
  obtain ⟨-, hbits, -⟩ := (signByte_spec low hlow).2 neg
  rw [isMinimal, reverse_concat, Fewest]
  simp only [hbits]
  by_cases h : low = 0
  · rcases eq_nil_or_concat' s with rfl | ⟨t, c, rfl⟩ <;> simp [h]
  · simp [h]

/-- The magnitude is written with its sign. -/
theorem serializeNum_eq (hlow : low &&& 0x80 = 0) (hfew : Fewest s low) (hlen : s.length < 8)
    (hn : n = if neg then -(toNatLE (s ++ [low]) : ℤ) else toNatLE (s ++ [low])) :
    serializeNum n = s ++ [signByte neg low] := by
  have hpos := hfew.pos
  have habs : n.natAbs = toNatLE (s ++ [low]) := by cases neg <;> simp [hn]
  have hneg : n < 0 ↔ neg = true := by cases neg <;> simp [hn, hpos]
  rw [serializeNum, if_neg (by omega), habs]
  simp only [hneg]
  by_cases h : low = 0
  · obtain ⟨t, c, rfl, hc⟩ := hfew.resolve_left (not_not_intro h)
    have hm : toNatLE (t ++ [c] ++ [low]) = toNatLE (t ++ [c]) := by
      rw [h, toNatLE_concat (t ++ [c])]
      simp
    rw [hm, magnitudeBytes_concat (fun h => hc (by rw [h]; rfl)) (by simp at hlen; omega)]
    simp [hc, h, signByte]
  · rw [magnitudeBytes_concat h hlen]
    cases neg <;> simp [hlow, signByte]

/-- What is written of a number: it is short and minimal, and read back. -/
theorem serializeNum_spec {k : ℕ} (hk : k < 8) (hn : n.natAbs < 128 * 256 ^ k) :
    (serializeNum n).length ≤ k + 1 ∧ setVch (serializeNum n) = n ∧
      isMinimal (serializeNum n) = true := by
  rcases Nat.eq_zero_or_pos n.natAbs with hzero | hpos
  · obtain rfl := Int.natAbs_eq_zero.mp hzero
    exact ⟨Nat.zero_le _, rfl, rfl⟩
  · obtain ⟨s, low, hlow, hfew, hlen, hm⟩ := exists_fewest hpos hn
    have hval : n = if decide (n < 0) then -(toNatLE (s ++ [low]) : ℤ) else toNatLE (s ++ [low]) := by
      simp only [hm, decide_eq_true_eq]
      split_ifs <;> omega
    rw [serializeNum_eq hlow hfew (by omega) hval, isMinimal_concat hlow, setVch_concat hlow]
    exact ⟨by simpa using hlen, hval.symm, hfew⟩

/-- **Script numbers are canonical**: a 64-bit number other than the least one is read back from
its bytes, which pass the test for a minimal encoding, and no others of at most eight bytes do. -/
theorem scriptNum_canonical :
    (∀ n : ℤ, -2 ^ 63 < n → n < 2 ^ 63 →
      (serializeNum n).length ≤ 8 ∧ setVch (serializeNum n) = n ∧
        ∀ nMaxNumSize, (serializeNum n).length ≤ nMaxNumSize →
          ofVch (serializeNum n) true nMaxNumSize = some n) ∧
      ∀ v : Bytes, v.length ≤ 8 → (isMinimal v = true ↔ v = serializeNum (setVch v)) := by
  refine ⟨fun n hlo hhi => ?_, fun v hlen => ?_⟩
  · obtain ⟨hlen, hval, hmin⟩ := serializeNum_spec (n := n) (k := 7) (by decide) (by omega)
    refine ⟨hlen, hval, fun size hsize => ?_⟩
    rw [ofVch, if_neg (Nat.not_lt.mpr hsize), hmin, hval]
    rfl
  · rcases eq_nil_or_concat' v with rfl | ⟨s, b, rfl⟩
    · exact iff_of_true rfl rfl
    · obtain ⟨neg, low, hlow, rfl⟩ := exists_signByte_eq b
      have hs : s.length < 8 := by
        rw [length_append, length_singleton] at hlen
        omega
      rw [isMinimal_concat hlow]
      refine ⟨fun hfew => (serializeNum_eq hlow hfew hs (setVch_concat hlow)).symm, fun heq => ?_⟩
      have hlt : toNatLE (s ++ [low]) < 128 * 256 ^ s.length := by
        have hmul := Nat.mul_le_mul_right (256 ^ s.length)
          (Nat.le_of_lt_succ (signByte_spec low hlow).1)
        have hlt := toNatLE_lt s
        rw [toNatLE_concat]
        omega
      have hmin := (serializeNum_spec hs (n := setVch (s ++ [signByte neg low]))
        (by rw [setVch_concat hlow]; split_ifs <;> simpa using hlt)).2.2
      rw [← heq] at hmin
      exact (isMinimal_concat hlow).mp hmin

end CScriptNum

/-! ## Flags, errors and encodings

What `interpreter.cpp` asks of signatures, public keys and pushes before it uses them. Which of
the rules apply is said by the flags of the call.
-/

open Opcode

/-! ## Flags and errors -/

def SCRIPT_VERIFY_P2SH : UInt32 := (1 : UInt32) <<< 0
def SCRIPT_VERIFY_STRICTENC : UInt32 := (1 : UInt32) <<< 1
def SCRIPT_VERIFY_DERSIG : UInt32 := (1 : UInt32) <<< 2
def SCRIPT_VERIFY_LOW_S : UInt32 := (1 : UInt32) <<< 3
def SCRIPT_VERIFY_NULLDUMMY : UInt32 := (1 : UInt32) <<< 4
def SCRIPT_VERIFY_SIGPUSHONLY : UInt32 := (1 : UInt32) <<< 5
def SCRIPT_VERIFY_MINIMALDATA : UInt32 := (1 : UInt32) <<< 6
def SCRIPT_VERIFY_DISCOURAGE_UPGRADABLE_NOPS : UInt32 := (1 : UInt32) <<< 7
def SCRIPT_VERIFY_CHECKLOCKTIMEVERIFY : UInt32 := (1 : UInt32) <<< 9

/-- `(flags & flag) != 0`. -/
def hasFlag (flags flag : UInt32) : Bool := flags &&& flag != 0

def SIGHASH_ALL : UInt8 := 1
def SIGHASH_SINGLE : UInt8 := 3
def SIGHASH_ANYONECANPAY : UInt8 := 0x80

/-- `MAX_SCRIPT_ELEMENT_SIZE`. -/
def MAX_SCRIPT_ELEMENT_SIZE : ℕ := 520

/-- `ScriptError`, without the value for no error. -/
inductive ScriptError
  | unknownError
  | evalFalse
  | opReturn
  | scriptSize
  | pushSize
  | opCount
  | stackSize
  | sigCount
  | pubkeyCount
  | verify
  | equalverify
  | checkcoldstakeverify
  | checkmultisigverify
  | checksigverify
  | numequalverify
  | badOpcode
  | disabledOpcode
  | invalidStackOperation
  | invalidAltstackOperation
  | unbalancedConditional
  | negativeLocktime
  | unsatisfiedLocktime
  | sigHashtype
  | sigDer
  | minimaldata
  | sigPushonly
  | sigHighS
  | sigNulldummy
  | pubkeytype
  | discourageUpgradableNops
  deriving DecidableEq

/-- `SigVersion`. -/
inductive SigVersion
  | base
  | sapling
  deriving DecidableEq

/-- What the interpreter and its checker use of the rest of the program: hash functions, the
curve, and the hash that is signed once `SignatureHash` has made its checks. -/
structure ScriptEnv where
  ripemd160 : Bytes → ByteArrayN 20
  sha1 : Bytes → ByteArrayN 20
  sha256 : Bytes → ByteArrayN 32
  hash160 : Bytes → ByteArrayN 20
  hash256 : Bytes → ByteArrayN 32
  /-- `CPubKey::CheckLowS`. -/
  checkLowS : Bytes → Bool
  /-- `CPubKey(bytes).Verify(hash, sig)`. -/
  pubKeyVerify : Bytes → Uint256 → Bytes → Bool
  /-- `SignatureHash(scriptCode, txTo, nIn, nHashType, amount, sigversion)`. -/
  sighash : CScript → CTransaction → ℕ → UInt8 → ℤ → SigVersion → Uint256

/-! ## Encodings -/

/-- `CastToBool`: whether a byte is not zero, where a sign alone at the end does not count. -/
def castToBool : Bytes → Bool
  | [] => false
  | [b] => b != 0 && b != 0x80
  | b :: rest => b != 0 || castToBool rest

/-- `IsCompressedOrUncompressedPubKey`. -/
def isCompressedOrUncompressedPubKey (vchPubKey : Bytes) : Bool :=
  if vchPubKey.length < 33 then false
  else if vchPubKey[0]? = some 0x04 then vchPubKey.length == 65
  else if vchPubKey[0]? = some 0x02 ∨ vchPubKey[0]? = some 0x03 then vchPubKey.length == 33
  else false

/-- The byte at an index that the checks before have shown to exist. -/
def byteAt (sig : Bytes) (i : ℕ) : UInt8 := (sig[i]?).getD 0

/-- `IsValidSignatureEncoding`. -/
def isValidSignatureEncoding (sig : Bytes) : Bool :=
  if sig.length < 9 then false
  else if sig.length > 73 then false
  else if byteAt sig 0 ≠ 0x30 then false
  else if (byteAt sig 1).toNat ≠ sig.length - 3 then false
  else
    let lenR := (byteAt sig 3).toNat
    if 5 + lenR ≥ sig.length then false
    else
      let lenS := (byteAt sig (5 + lenR)).toNat
      if lenR + lenS + 7 ≠ sig.length then false
      else if byteAt sig 2 ≠ 0x02 then false
      else if lenR = 0 then false
      else if byteAt sig 4 &&& 0x80 ≠ 0 then false
      else if lenR > 1 ∧ byteAt sig 4 = 0 ∧ byteAt sig 5 &&& 0x80 = 0 then false
      else if byteAt sig (lenR + 4) ≠ 0x02 then false
      else if lenS = 0 then false
      else if byteAt sig (lenR + 6) &&& 0x80 ≠ 0 then false
      else if lenS > 1 ∧ byteAt sig (lenR + 6) = 0 ∧ byteAt sig (lenR + 7) &&& 0x80 = 0 then false
      else true

/-- `IsLowDERSignature`. -/
def isLowDERSignature (E : ScriptEnv) (vchSig : Bytes) : Except ScriptError Unit :=
  if !isValidSignatureEncoding vchSig then .error .sigDer
  else if !E.checkLowS vchSig.dropLast then .error .sigHighS
  else .ok ()

/-- `IsDefinedHashtypeSignature`. -/
def isDefinedHashtypeSignature (vchSig : Bytes) : Bool :=
  match vchSig.getLast? with
  | none => false
  | some back =>
    let nHashType := back &&& ~~~SIGHASH_ANYONECANPAY
    !(nHashType < SIGHASH_ALL || nHashType > SIGHASH_SINGLE)

/-- `CheckSignatureEncoding`. -/
def checkSignatureEncoding (E : ScriptEnv) (vchSig : Bytes) (flags : UInt32) :
    Except ScriptError Unit :=
  if vchSig.isEmpty then .ok ()
  else if hasFlag flags (SCRIPT_VERIFY_DERSIG ||| SCRIPT_VERIFY_LOW_S ||| SCRIPT_VERIFY_STRICTENC) &&
      !isValidSignatureEncoding vchSig then .error .sigDer
  else
    (if hasFlag flags SCRIPT_VERIFY_LOW_S then isLowDERSignature E vchSig else .ok ()).bind fun _ =>
      if hasFlag flags SCRIPT_VERIFY_STRICTENC && !isDefinedHashtypeSignature vchSig then
        .error .sigHashtype
      else .ok ()

/-- `CheckPubKeyEncoding`. -/
def checkPubKeyEncoding (vchPubKey : Bytes) (flags : UInt32) : Except ScriptError Unit :=
  if hasFlag flags SCRIPT_VERIFY_STRICTENC && !isCompressedOrUncompressedPubKey vchPubKey then
    .error .pubkeytype
  else .ok ()

/-- `CheckMinimalPush`. -/
def checkMinimalPush (data : Bytes) (opcode : UInt8) : Bool :=
  match data with
  | [] => opcode == OP_0
  | b :: rest =>
    if rest.isEmpty ∧ 1 ≤ b ∧ b ≤ 16 then opcode == OP_1 + (b - 1)
    else if rest.isEmpty ∧ b = 0x81 then opcode == OP_1NEGATE
    else if data.length ≤ 75 then opcode.toNat == data.length
    else if data.length ≤ 255 then opcode == OP_PUSHDATA1
    else if data.length ≤ 65535 then opcode == OP_PUSHDATA2
    else true

end Passion
