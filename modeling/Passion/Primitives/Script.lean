import Passion.Common.Codec

/-!
# Scripts

The byte-level part of `script.h` and `script.cpp`: reading the next opcode, pushing
numbers, the signature-operation counts and the fixed script shapes that consensus code
tests for. A position in a script is the rest of the script from there.
-/

namespace Passion

/-- `CScript`. -/
abbrev CScript := Bytes

namespace Opcode

def OP_0 : UInt8 := 0x00
def OP_PUSHDATA1 : UInt8 := 0x4c
def OP_PUSHDATA2 : UInt8 := 0x4d
def OP_PUSHDATA4 : UInt8 := 0x4e
def OP_1NEGATE : UInt8 := 0x4f
def OP_1 : UInt8 := 0x51
def OP_16 : UInt8 := 0x60
def OP_NOP : UInt8 := 0x61
def OP_IF : UInt8 := 0x63
def OP_NOTIF : UInt8 := 0x64
def OP_ELSE : UInt8 := 0x67
def OP_ENDIF : UInt8 := 0x68
def OP_VERIFY : UInt8 := 0x69
def OP_RETURN : UInt8 := 0x6a
def OP_TOALTSTACK : UInt8 := 0x6b
def OP_FROMALTSTACK : UInt8 := 0x6c
def OP_2DROP : UInt8 := 0x6d
def OP_2DUP : UInt8 := 0x6e
def OP_3DUP : UInt8 := 0x6f
def OP_2OVER : UInt8 := 0x70
def OP_2ROT : UInt8 := 0x71
def OP_2SWAP : UInt8 := 0x72
def OP_IFDUP : UInt8 := 0x73
def OP_DEPTH : UInt8 := 0x74
def OP_DROP : UInt8 := 0x75
def OP_DUP : UInt8 := 0x76
def OP_NIP : UInt8 := 0x77
def OP_OVER : UInt8 := 0x78
def OP_PICK : UInt8 := 0x79
def OP_ROLL : UInt8 := 0x7a
def OP_ROT : UInt8 := 0x7b
def OP_SWAP : UInt8 := 0x7c
def OP_TUCK : UInt8 := 0x7d
def OP_CAT : UInt8 := 0x7e
def OP_SUBSTR : UInt8 := 0x7f
def OP_LEFT : UInt8 := 0x80
def OP_RIGHT : UInt8 := 0x81
def OP_SIZE : UInt8 := 0x82
def OP_INVERT : UInt8 := 0x83
def OP_AND : UInt8 := 0x84
def OP_OR : UInt8 := 0x85
def OP_XOR : UInt8 := 0x86
def OP_EQUAL : UInt8 := 0x87
def OP_EQUALVERIFY : UInt8 := 0x88
def OP_1ADD : UInt8 := 0x8b
def OP_1SUB : UInt8 := 0x8c
def OP_2MUL : UInt8 := 0x8d
def OP_2DIV : UInt8 := 0x8e
def OP_NEGATE : UInt8 := 0x8f
def OP_ABS : UInt8 := 0x90
def OP_NOT : UInt8 := 0x91
def OP_0NOTEQUAL : UInt8 := 0x92
def OP_ADD : UInt8 := 0x93
def OP_SUB : UInt8 := 0x94
def OP_MUL : UInt8 := 0x95
def OP_DIV : UInt8 := 0x96
def OP_MOD : UInt8 := 0x97
def OP_LSHIFT : UInt8 := 0x98
def OP_RSHIFT : UInt8 := 0x99
def OP_BOOLAND : UInt8 := 0x9a
def OP_BOOLOR : UInt8 := 0x9b
def OP_NUMEQUAL : UInt8 := 0x9c
def OP_NUMEQUALVERIFY : UInt8 := 0x9d
def OP_NUMNOTEQUAL : UInt8 := 0x9e
def OP_LESSTHAN : UInt8 := 0x9f
def OP_GREATERTHAN : UInt8 := 0xa0
def OP_LESSTHANOREQUAL : UInt8 := 0xa1
def OP_GREATERTHANOREQUAL : UInt8 := 0xa2
def OP_MIN : UInt8 := 0xa3
def OP_MAX : UInt8 := 0xa4
def OP_WITHIN : UInt8 := 0xa5
def OP_RIPEMD160 : UInt8 := 0xa6
def OP_SHA1 : UInt8 := 0xa7
def OP_SHA256 : UInt8 := 0xa8
def OP_HASH160 : UInt8 := 0xa9
def OP_HASH256 : UInt8 := 0xaa
def OP_CODESEPARATOR : UInt8 := 0xab
def OP_CHECKSIG : UInt8 := 0xac
def OP_CHECKSIGVERIFY : UInt8 := 0xad
def OP_CHECKMULTISIG : UInt8 := 0xae
def OP_CHECKMULTISIGVERIFY : UInt8 := 0xaf
def OP_NOP1 : UInt8 := 0xb0
def OP_CHECKLOCKTIMEVERIFY : UInt8 := 0xb1
def OP_NOP3 : UInt8 := 0xb2
def OP_NOP10 : UInt8 := 0xb9
def OP_CHECKCOLDSTAKEVERIFY : UInt8 := 0xd1
def OP_INVALIDOPCODE : UInt8 := 0xff

end Opcode

open Opcode

/-- `MAX_SCRIPT_SIZE`. -/
def MAX_SCRIPT_SIZE : ℕ := 10000

/-- `LOCKTIME_THRESHOLD`. -/
def LOCKTIME_THRESHOLD : ℤ := 500000000

/-- `MAX_PUBKEYS_PER_MULTISIG`. -/
def MAX_PUBKEYS_PER_MULTISIG : ℕ := 20

namespace CScript

/-- `CScriptNum::serialize`, the loop over the magnitude: at most eight bytes of a
64-bit number. -/
def magnitudeBytes : ℕ → ℕ → Bytes
  | 0, _ => []
  | fuel + 1, absvalue =>
    if absvalue = 0 then [] else UInt8.ofNat absvalue :: magnitudeBytes fuel (absvalue / 256)

/-- `CScriptNum::serialize`. -/
def serializeNum (value : ℤ) : Bytes :=
  if value = 0 then []
  else
    let result := magnitudeBytes 8 value.natAbs
    match result.getLast? with
    | none => result
    | some back =>
      if back &&& 0x80 ≠ 0 then result ++ [if value < 0 then 0x80 else 0]
      else if value < 0 then result.dropLast ++ [back ||| 0x80]
      else result

/-- `CScript::operator<<` with a byte vector. -/
def pushData (b : Bytes) : CScript :=
  if b.length < OP_PUSHDATA1.toNat then UInt8.ofNat b.length :: b
  else if b.length ≤ 0xff then OP_PUSHDATA1 :: UInt8.ofNat b.length :: b
  else if b.length ≤ 0xffff then OP_PUSHDATA2 :: (Bytes.ofNatLE 2 b.length ++ b)
  else OP_PUSHDATA4 :: (Bytes.ofNatLE 4 b.length ++ b)

/-- `CScript::push_int64` onto the empty script. -/
def pushInt64 (n : ℤ) : CScript :=
  if n = -1 ∨ (1 ≤ n ∧ n ≤ 16) then [UInt8.ofNat (n + 0x50).toNat]
  else if n = 0 then [OP_0]
  else pushData (serializeNum n)

/-- The operand size of a push opcode and the script after its length bytes, as in
`GetOp2`. -/
def pushSize (opcode : UInt8) (pc : CScript) : Option (ℕ × CScript) :=
  if opcode < OP_PUSHDATA1 then some (opcode.toNat, pc)
  else if opcode = OP_PUSHDATA1 then
    if pc.length < 1 then none else some (Bytes.toNatLE (pc.take 1), pc.drop 1)
  else if opcode = OP_PUSHDATA2 then
    if pc.length < 2 then none else some (Bytes.toNatLE (pc.take 2), pc.drop 2)
  else
    if pc.length < 4 then none else some (Bytes.toNatLE (pc.take 4), pc.drop 4)

/-- `GetOp2`: the opcode, its operand and the position after it. -/
def getOp : CScript → Option (UInt8 × Bytes × CScript)
  | [] => none
  | opcode :: pc =>
    if opcode ≤ OP_PUSHDATA4 then
      match pushSize opcode pc with
      | none => none
      | some (nSize, pc) =>
        if pc.length < nSize then none else some (opcode, pc.take nSize, pc.drop nSize)
    else some (opcode, [], pc)

/-- The loop of `GetSigOpCount(bool)`; every opcode consumes a byte, so the length of the
script is fuel enough. -/
def sigOpLoop (fAccurate : Bool) : ℕ → CScript → UInt8 → ℕ → ℕ
  | 0, _, _, n => n
  | fuel + 1, pc, lastOpcode, n =>
    match getOp pc with
    | none => n
    | some (opcode, _, pc) =>
      let n :=
        if opcode = OP_CHECKSIG ∨ opcode = OP_CHECKSIGVERIFY then n + 1
        else if opcode = OP_CHECKMULTISIG ∨ opcode = OP_CHECKMULTISIGVERIFY then
          if fAccurate ∧ OP_1 ≤ lastOpcode ∧ lastOpcode ≤ OP_16 then
            n + (lastOpcode.toNat - 0x50)
          else n + MAX_PUBKEYS_PER_MULTISIG
        else n
      sigOpLoop fAccurate fuel pc opcode n

/-- `GetSigOpCount(bool fAccurate)`, whose `unsigned int` no script of a message overflows. -/
def getSigOpCount (script : CScript) (fAccurate : Bool) : ℕ :=
  sigOpLoop fAccurate script.length script OP_INVALIDOPCODE 0

/-- `IsPayToPublicKeyHash`. -/
def isPayToPublicKeyHash (s : CScript) : Bool :=
  s.length == 25 && s[0]? == some OP_DUP && s[1]? == some OP_HASH160 && s[2]? == some 0x14 &&
    s[23]? == some OP_EQUALVERIFY && s[24]? == some OP_CHECKSIG

/-- `IsPayToScriptHash`. -/
def isPayToScriptHash (s : CScript) : Bool :=
  s.length == 23 && s[0]? == some OP_HASH160 && s[1]? == some 0x14 && s[22]? == some OP_EQUAL

/-- `IsPayToColdStaking`. -/
def isPayToColdStaking (s : CScript) : Bool :=
  s.length == 51 && s[2]? == some OP_ROT && s[4]? == some OP_CHECKCOLDSTAKEVERIFY &&
    s[5]? == some 0x14 && s[27]? == some 0x14 && s[49]? == some OP_EQUALVERIFY &&
    s[50]? == some OP_CHECKSIG

/-- The loop of `GetSigOpCount(const CScript&)` over the script signature: the last pushed
item, or `none` if something else than a push is met. -/
def lastPushLoop : ℕ → CScript → Bytes → Option Bytes
  | 0, _, data => some data
  | fuel + 1, pc, data =>
    if pc.isEmpty then some data
    else match getOp pc with
      | none => none
      | some (opcode, vch, pc) => if opcode > OP_16 then none else lastPushLoop fuel pc vch

/-- `GetSigOpCount(const CScript& scriptSig)`. -/
def getSigOpCountP2SH (script scriptSig : CScript) : ℕ :=
  if !isPayToScriptHash script then getSigOpCount script true
  else match lastPushLoop scriptSig.length scriptSig [] with
    | none => 0
    | some data => getSigOpCount data true

/-- The loop of `IsPushOnly`. -/
def isPushOnlyLoop : ℕ → CScript → Bool
  | 0, pc => pc.isEmpty
  | fuel + 1, pc =>
    if pc.isEmpty then true
    else match getOp pc with
      | none => false
      | some (opcode, _, pc) => if opcode > OP_16 then false else isPushOnlyLoop fuel pc

/-- `IsPushOnly(pc)`. -/
def isPushOnly (pc : CScript) : Bool := isPushOnlyLoop pc.length pc

/-- `IsUnspendable`. -/
def isUnspendable (s : CScript) : Bool :=
  s.head? == some OP_RETURN || decide (s.length > MAX_SCRIPT_SIZE)

end CScript

end Passion
