import Passion.Common.MachineNumber
import Passion.Common.Stateful
import Passion.Script.Encoding

/-!
# The script interpreter

`EvalScript` and `VerifyScript` of `interpreter.cpp`, with every opcode. The top of a stack is the
head of its list. A position in the script is the rest of the script from there. Whatever throws
inside `EvalScript` is caught there and ends in the error for unknown reasons. Signatures, lock
times and cold stakes are left to a checker.
-/

namespace Passion

open Opcode

/-- `BaseSignatureChecker`; nothing where a check throws. -/
structure SignatureChecker where
  checkSig : Bytes → Bytes → CScript → SigVersion → Option Bool
  checkLockTime : ℤ → Option Bool
  checkColdStake : CScript → Bool

namespace Script

/-! ## Deleting a signature from a script -/

/-- A script from the first place on where it does not start with `b`. -/
def dropAll (b : CScript) : ℕ → CScript → CScript
  | 0, pc => pc
  | fuel + 1, pc => if b.isPrefixOf pc then dropAll b fuel (pc.drop b.length) else pc

/-- The loop of `FindAndDelete`. -/
def findAndDeleteLoop (b : CScript) : ℕ → CScript → CScript
  | 0, pc => pc
  | fuel + 1, pc =>
    let pc := dropAll b pc.length pc
    match CScript.getOp pc with
    | none => pc
    | some (_, _, next) => pc.take (pc.length - next.length) ++ findAndDeleteLoop b fuel next

/-- `FindAndDelete`. -/
def findAndDelete (b script : CScript) : CScript :=
  if b.isEmpty then script else findAndDeleteLoop b (script.length + 1) script

/-! ## The state -/

/-- The arguments of `EvalScript` that do not change. -/
structure EvalContext where
  env : ScriptEnv
  script : CScript
  flags : UInt32
  checker : SignatureChecker
  sigversion : SigVersion

/-- The variables of `EvalScript`. -/
structure EvalState where
  pc : CScript
  stack : List Bytes
  altstack : List Bytes
  vfExec : List Bool
  nOpCount : ℕ
  pbegincodehash : CScript

/-- `vchTrue` and `vchFalse`. -/
def vchBool (b : Bool) : Bytes := if b then [1] else []

variable (c : EvalContext)

/-- `fRequireMinimal`. -/
def EvalContext.fRequireMinimal : Bool := hasFlag c.flags SCRIPT_VERIFY_MINIMALDATA

/-- `CScriptNum(vch, fRequireMinimal)`. -/
def EvalContext.num (vch : Bytes) : Except ScriptError ℤ :=
  match CScriptNum.ofVch vch c.fRequireMinimal CScriptNum.nDefaultMaxNumSize with
  | none => .error .unknownError
  | some n => .ok n

/-! ## Stack opcodes -/

/-- The opcodes that only move elements, and `OP_SIZE`. -/
def stackOp (opcode : UInt8) (stack : List Bytes) : Except ScriptError (List Bytes) :=
  if opcode = OP_2DROP then
    match stack with
    | _ :: _ :: s => .ok s
    | _ => .error .invalidStackOperation
  else if opcode = OP_2DUP then
    match stack with
    | x2 :: x1 :: s => .ok (x2 :: x1 :: x2 :: x1 :: s)
    | _ => .error .invalidStackOperation
  else if opcode = OP_3DUP then
    match stack with
    | x3 :: x2 :: x1 :: s => .ok (x3 :: x2 :: x1 :: x3 :: x2 :: x1 :: s)
    | _ => .error .invalidStackOperation
  else if opcode = OP_2OVER then
    match stack with
    | x4 :: x3 :: x2 :: x1 :: s => .ok (x2 :: x1 :: x4 :: x3 :: x2 :: x1 :: s)
    | _ => .error .invalidStackOperation
  else if opcode = OP_2ROT then
    match stack with
    | x6 :: x5 :: x4 :: x3 :: x2 :: x1 :: s => .ok (x2 :: x1 :: x6 :: x5 :: x4 :: x3 :: s)
    | _ => .error .invalidStackOperation
  else if opcode = OP_2SWAP then
    match stack with
    | x4 :: x3 :: x2 :: x1 :: s => .ok (x2 :: x1 :: x4 :: x3 :: s)
    | _ => .error .invalidStackOperation
  else if opcode = OP_IFDUP then
    match stack with
    | x :: s => .ok (if castToBool x then x :: x :: s else x :: s)
    | _ => .error .invalidStackOperation
  else if opcode = OP_DEPTH then .ok (CScript.serializeNum stack.length :: stack)
  else if opcode = OP_DROP then
    match stack with
    | _ :: s => .ok s
    | _ => .error .invalidStackOperation
  else if opcode = OP_DUP then
    match stack with
    | x :: s => .ok (x :: x :: s)
    | _ => .error .invalidStackOperation
  else if opcode = OP_NIP then
    match stack with
    | x2 :: _ :: s => .ok (x2 :: s)
    | _ => .error .invalidStackOperation
  else if opcode = OP_OVER then
    match stack with
    | x2 :: x1 :: s => .ok (x1 :: x2 :: x1 :: s)
    | _ => .error .invalidStackOperation
  else if opcode = OP_ROT then
    match stack with
    | x3 :: x2 :: x1 :: s => .ok (x1 :: x3 :: x2 :: s)
    | _ => .error .invalidStackOperation
  else if opcode = OP_SWAP then
    match stack with
    | x2 :: x1 :: s => .ok (x1 :: x2 :: s)
    | _ => .error .invalidStackOperation
  else if opcode = OP_TUCK then
    match stack with
    | x2 :: x1 :: s => .ok (x2 :: x1 :: x2 :: s)
    | _ => .error .invalidStackOperation
  else
    match stack with
    | x :: s => .ok (CScript.serializeNum x.length :: x :: s)
    | _ => .error .invalidStackOperation

/-- `OP_PICK` and `OP_ROLL`. -/
def pickOp (opcode : UInt8) (stack : List Bytes) : Except ScriptError (List Bytes) :=
  match stack with
  | top :: x :: s =>
    (c.num top).bind fun bn =>
      let n := CScriptNum.getint bn
      let rest := x :: s
      if n < 0 then .error .invalidStackOperation
      else match rest[n.toNat]? with
        | none => .error .invalidStackOperation
        | some vch => .ok (vch :: if opcode = OP_ROLL then rest.eraseIdx n.toNat else rest)
  | _ => .error .invalidStackOperation

/-- `OP_EQUAL` and `OP_EQUALVERIFY`. -/
def equalOp (opcode : UInt8) (stack : List Bytes) : Except ScriptError (List Bytes) :=
  match stack with
  | vch2 :: vch1 :: s =>
    let fEqual := vch1 == vch2
    if opcode = OP_EQUALVERIFY then if fEqual then .ok s else .error .equalverify
    else .ok (vchBool fEqual :: s)
  | _ => .error .invalidStackOperation

/-! ## Numeric opcodes -/

/-- The opcodes with one operand. -/
def unaryNum (opcode : UInt8) (bn : ℤ) : ℤ :=
  if opcode = OP_1ADD then bn + 1
  else if opcode = OP_1SUB then bn - 1
  else if opcode = OP_NEGATE then -bn
  else if opcode = OP_ABS then if bn < 0 then -bn else bn
  else if opcode = OP_NOT then CScriptNum.ofBool (bn == 0)
  else CScriptNum.ofBool (bn != 0)

def unaryOp (opcode : UInt8) (stack : List Bytes) : Except ScriptError (List Bytes) :=
  match stack with
  | x :: s => (c.num x).bind fun bn => .ok (CScript.serializeNum (unaryNum opcode bn) :: s)
  | _ => .error .invalidStackOperation

/-- The opcodes with two operands. -/
def binaryNum (opcode : UInt8) (bn1 bn2 : ℤ) : ℤ :=
  if opcode = OP_ADD then bn1 + bn2
  else if opcode = OP_SUB then bn1 - bn2
  else if opcode = OP_BOOLAND then CScriptNum.ofBool (bn1 != 0 && bn2 != 0)
  else if opcode = OP_BOOLOR then CScriptNum.ofBool (bn1 != 0 || bn2 != 0)
  else if opcode = OP_NUMEQUAL ∨ opcode = OP_NUMEQUALVERIFY then CScriptNum.ofBool (bn1 == bn2)
  else if opcode = OP_NUMNOTEQUAL then CScriptNum.ofBool (bn1 != bn2)
  else if opcode = OP_LESSTHAN then CScriptNum.ofBool (decide (bn1 < bn2))
  else if opcode = OP_GREATERTHAN then CScriptNum.ofBool (decide (bn1 > bn2))
  else if opcode = OP_LESSTHANOREQUAL then CScriptNum.ofBool (decide (bn1 ≤ bn2))
  else if opcode = OP_GREATERTHANOREQUAL then CScriptNum.ofBool (decide (bn1 ≥ bn2))
  else if opcode = OP_MIN then if bn1 < bn2 then bn1 else bn2
  else if bn1 > bn2 then bn1 else bn2

def binaryOp (opcode : UInt8) (stack : List Bytes) : Except ScriptError (List Bytes) :=
  match stack with
  | x2 :: x1 :: s =>
    (c.num x1).bind fun bn1 => (c.num x2).bind fun bn2 =>
      let result := CScript.serializeNum (binaryNum opcode bn1 bn2)
      if opcode = OP_NUMEQUALVERIFY then
        if castToBool result then .ok s else .error .numequalverify
      else .ok (result :: s)
  | _ => .error .invalidStackOperation

/-- `OP_WITHIN`. -/
def withinOp (stack : List Bytes) : Except ScriptError (List Bytes) :=
  match stack with
  | x3 :: x2 :: x1 :: s =>
    (c.num x1).bind fun bn1 => (c.num x2).bind fun bn2 => (c.num x3).bind fun bn3 =>
      .ok (vchBool (decide (bn2 ≤ bn1 ∧ bn1 < bn3)) :: s)
  | _ => .error .invalidStackOperation

/-! ## Crypto opcodes -/

/-- The hash an opcode computes. -/
def hashOf (opcode : UInt8) (vch : Bytes) : Bytes :=
  if opcode = OP_RIPEMD160 then (c.env.ripemd160 vch).val
  else if opcode = OP_SHA1 then (c.env.sha1 vch).val
  else if opcode = OP_SHA256 then (c.env.sha256 vch).val
  else if opcode = OP_HASH160 then (c.env.hash160 vch).val
  else (c.env.hash256 vch).val

def hashOp (opcode : UInt8) (stack : List Bytes) : Except ScriptError (List Bytes) :=
  match stack with
  | vch :: s => .ok (hashOf c opcode vch :: s)
  | _ => .error .invalidStackOperation

/-- `CheckSig` of the checker, after the checks of both encodings. -/
def checkedSig (vchSig vchPubKey scriptCode : Bytes) : Except ScriptError Bool :=
  (checkSignatureEncoding c.env vchSig c.flags).bind fun _ =>
    (checkPubKeyEncoding vchPubKey c.flags).bind fun _ =>
      match c.checker.checkSig vchSig vchPubKey scriptCode c.sigversion with
      | none => .error .unknownError
      | some fOk => .ok fOk

/-- `OP_CHECKSIG` and `OP_CHECKSIGVERIFY`. -/
def checkSigOp (opcode : UInt8) (s : EvalState) : Except ScriptError (List Bytes) :=
  match s.stack with
  | vchPubKey :: vchSig :: rest =>
    let scriptCode := findAndDelete (CScript.pushData vchSig) s.pbegincodehash
    (checkedSig c vchSig vchPubKey scriptCode).bind fun fSuccess =>
      if opcode = OP_CHECKSIGVERIFY then if fSuccess then .ok rest else .error .checksigverify
      else .ok (vchBool fSuccess :: rest)
  | _ => .error .invalidStackOperation

/-- The loop of `OP_CHECKMULTISIG` over the keys that are left, with the signatures that are
left; both have the top of the stack first. -/
def multisigLoop (scriptCode : CScript) : List Bytes → List Bytes → Except ScriptError Bool
  | _, [] => .ok true
  | [], _ :: _ => .ok false
  | vchPubKey :: keys, vchSig :: sigs =>
    (checkedSig c vchSig vchPubKey scriptCode).bind fun fOk =>
      let sigs := if fOk then sigs else vchSig :: sigs
      if sigs.length > keys.length then .ok false else multisigLoop scriptCode keys sigs

/-- The arguments of `OP_CHECKMULTISIG` once their numbers are checked. -/
structure MultisigArgs where
  nOpCount : ℕ
  keys : List Bytes
  sigs : List Bytes
  /-- What is left of the stack, with the extra argument on top. -/
  below : List Bytes

/-- `OP_CHECKMULTISIG` up to its loop. -/
def multisigArgs (s : EvalState) : Except ScriptError MultisigArgs :=
  match s.stack with
  | [] => .error .invalidStackOperation
  | keysCount :: stack =>
    (c.num keysCount).bind fun bnKeys =>
      let nKeysCount := CScriptNum.getint bnKeys
      if nKeysCount < 0 ∨ nKeysCount > MAX_PUBKEYS_PER_MULTISIG then .error .pubkeyCount
      else
        let nOpCount := s.nOpCount + nKeysCount.toNat
        if nOpCount > 201 then .error .opCount
        else match stack.drop nKeysCount.toNat with
          | [] => .error .invalidStackOperation
          | sigsCount :: stack' =>
            (c.num sigsCount).bind fun bnSigs =>
              let nSigsCount := CScriptNum.getint bnSigs
              if nSigsCount < 0 ∨ nSigsCount > nKeysCount then .error .sigCount
              -- The extra argument has to be there too.
              else if stack'.length < nSigsCount.toNat + 1 then .error .invalidStackOperation
              else .ok ⟨nOpCount, stack.take nKeysCount.toNat, stack'.take nSigsCount.toNat,
                stack'.drop nSigsCount.toNat⟩

/-- The code that signatures sign: they are taken out of it. -/
def multisigCode (s : EvalState) (sigs : List Bytes) : CScript :=
  sigs.foldl (fun code vchSig => findAndDelete (CScript.pushData vchSig) code) s.pbegincodehash

/-- `OP_CHECKMULTISIG` and `OP_CHECKMULTISIGVERIFY`: the stack and the count of opcodes. -/
def checkMultisigOp (opcode : UInt8) (s : EvalState) : Except ScriptError (List Bytes × ℕ) :=
  (multisigArgs c s).bind fun a =>
    (multisigLoop c (multisigCode s a.sigs) a.keys a.sigs).bind fun fSuccess =>
      match a.below with
      | [] => .error .invalidStackOperation
      | dummy :: rest =>
        if hasFlag c.flags SCRIPT_VERIFY_NULLDUMMY ∧ dummy ≠ [] then .error .sigNulldummy
        else if opcode = OP_CHECKMULTISIGVERIFY then
          if fSuccess then .ok (rest, a.nOpCount) else .error .checkmultisigverify
        else .ok (vchBool fSuccess :: rest, a.nOpCount)

/-! ## Control -/

/-- `OP_CHECKLOCKTIMEVERIFY`. -/
def checkLockTimeVerify (stack : List Bytes) : Except ScriptError Unit :=
  if !hasFlag c.flags SCRIPT_VERIFY_CHECKLOCKTIMEVERIFY then
    if hasFlag c.flags SCRIPT_VERIFY_DISCOURAGE_UPGRADABLE_NOPS then
      .error .discourageUpgradableNops
    else .ok ()
  else match stack with
    | [] => .error .invalidStackOperation
    | top :: _ =>
      match CScriptNum.ofVch top c.fRequireMinimal 5 with
      | none => .error .unknownError
      | some nLockTime =>
        if nLockTime < 0 then .error .negativeLocktime
        else match c.checker.checkLockTime nLockTime with
          | none => .error .unknownError
          | some ok => if ok then .ok () else .error .unsatisfiedLocktime

/-- `OP_IF` and `OP_NOTIF`. -/
def ifOp (opcode : UInt8) (fExec : Bool) (s : EvalState) : Except ScriptError EvalState :=
  if fExec then
    match s.stack with
    | [] => .error .unbalancedConditional
    | vch :: stack =>
      let fValue := if opcode = OP_NOTIF then !castToBool vch else castToBool vch
      .ok { s with stack := stack, vfExec := fValue :: s.vfExec }
  else .ok { s with vfExec := false :: s.vfExec }

/-- The state with another stack. -/
def EvalState.withStack (s : EvalState) (stack : List Bytes) : EvalState := { s with stack := stack }

/-- The `switch` over the opcodes that do not push data. -/
def execOp (opcode : UInt8) (fExec : Bool) (s : EvalState) : Except ScriptError EvalState :=
  if opcode = OP_1NEGATE ∨ (OP_1 ≤ opcode ∧ opcode ≤ OP_16) then
    .ok (s.withStack (CScript.serializeNum ((opcode.toNat : ℤ) - 0x50) :: s.stack))
  else if opcode = OP_NOP then .ok s
  else if opcode = OP_CHECKLOCKTIMEVERIFY then (checkLockTimeVerify c s.stack).map fun _ => s
  else if opcode = OP_NOP1 ∨ (OP_NOP3 ≤ opcode ∧ opcode ≤ OP_NOP10) then
    if hasFlag c.flags SCRIPT_VERIFY_DISCOURAGE_UPGRADABLE_NOPS then
      .error .discourageUpgradableNops
    else .ok s
  else if opcode = OP_IF ∨ opcode = OP_NOTIF then ifOp opcode fExec s
  else if opcode = OP_ELSE then
    match s.vfExec with
    | [] => .error .unbalancedConditional
    | b :: rest => .ok { s with vfExec := (!b) :: rest }
  else if opcode = OP_ENDIF then
    match s.vfExec with
    | [] => .error .unbalancedConditional
    | _ :: rest => .ok { s with vfExec := rest }
  else if opcode = OP_VERIFY then
    match s.stack with
    | [] => .error .invalidStackOperation
    | top :: stack => if castToBool top then .ok (s.withStack stack) else .error .verify
  else if opcode = OP_RETURN then .error .opReturn
  else if opcode = OP_TOALTSTACK then
    match s.stack with
    | [] => .error .invalidStackOperation
    | top :: stack => .ok { s with stack := stack, altstack := top :: s.altstack }
  else if opcode = OP_FROMALTSTACK then
    match s.altstack with
    | [] => .error .invalidAltstackOperation
    | top :: altstack => .ok { s with stack := top :: s.stack, altstack := altstack }
  else if opcode = OP_PICK ∨ opcode = OP_ROLL then (pickOp c opcode s.stack).map s.withStack
  else if (OP_2DROP ≤ opcode ∧ opcode ≤ OP_TUCK) ∨ opcode = OP_SIZE then
    (stackOp opcode s.stack).map s.withStack
  else if opcode = OP_EQUAL ∨ opcode = OP_EQUALVERIFY then (equalOp opcode s.stack).map s.withStack
  else if (OP_1ADD ≤ opcode ∧ opcode ≤ OP_1SUB) ∨ (OP_NEGATE ≤ opcode ∧ opcode ≤ OP_0NOTEQUAL) then
    (unaryOp c opcode s.stack).map s.withStack
  else if (OP_ADD ≤ opcode ∧ opcode ≤ OP_SUB) ∨ (OP_BOOLAND ≤ opcode ∧ opcode ≤ OP_MAX) then
    (binaryOp c opcode s.stack).map s.withStack
  else if opcode = OP_WITHIN then (withinOp c s.stack).map s.withStack
  else if OP_RIPEMD160 ≤ opcode ∧ opcode ≤ OP_HASH256 then (hashOp c opcode s.stack).map s.withStack
  else if opcode = OP_CODESEPARATOR then .ok { s with pbegincodehash := s.pc }
  else if opcode = OP_CHECKSIG ∨ opcode = OP_CHECKSIGVERIFY then
    (checkSigOp c opcode s).map s.withStack
  else if opcode = OP_CHECKMULTISIG ∨ opcode = OP_CHECKMULTISIGVERIFY then
    (checkMultisigOp c opcode s).map fun (stack, nOpCount) =>
      { s with stack := stack, nOpCount := nOpCount }
  else if opcode = OP_CHECKCOLDSTAKEVERIFY then
    if c.checker.checkColdStake c.script then .ok s else .error .checkcoldstakeverify
  else .error .badOpcode

/-! ## The loop -/

/-- The disabled opcodes. -/
def isDisabled (opcode : UInt8) : Bool :=
  opcode == OP_CAT || opcode == OP_SUBSTR || opcode == OP_LEFT || opcode == OP_RIGHT ||
    opcode == OP_INVERT || opcode == OP_AND || opcode == OP_OR || opcode == OP_XOR ||
    opcode == OP_2MUL || opcode == OP_2DIV || opcode == OP_MUL || opcode == OP_DIV ||
    opcode == OP_MOD || opcode == OP_LSHIFT || opcode == OP_RSHIFT

/-- `OP_IF <= opcode && opcode <= OP_ENDIF`: the opcodes that run in a branch not taken. -/
def isConditional (opcode : UInt8) : Bool := decide (OP_IF ≤ opcode ∧ opcode ≤ OP_ENDIF)

/-- An opcode with its operand, in the state after it has been read. -/
def execute (opcode : UInt8) (vchPushValue : Bytes) (s : EvalState) :
    Except ScriptError EvalState :=
  let fExec := !s.vfExec.contains false
  if fExec && opcode ≤ OP_PUSHDATA4 then
    if c.fRequireMinimal && !checkMinimalPush vchPushValue opcode then .error .minimaldata
    else .ok (s.withStack (vchPushValue :: s.stack))
  else if fExec || isConditional opcode then execOp c opcode fExec s
  else .ok s

/-- One turn of the loop. -/
def step (s : EvalState) : Except ScriptError EvalState :=
  match CScript.getOp s.pc with
  | none => .error .badOpcode
  | some (opcode, vchPushValue, pc) =>
    if vchPushValue.length > MAX_SCRIPT_ELEMENT_SIZE then .error .pushSize
    else
      let nOpCount := if opcode > OP_16 then s.nOpCount + 1 else s.nOpCount
      if opcode > OP_16 ∧ nOpCount > 201 then .error .opCount
      else if isDisabled opcode then .error .disabledOpcode
      else (execute c opcode vchPushValue { s with pc := pc, nOpCount := nOpCount }).bind fun s =>
        if s.stack.length + s.altstack.length > 1000 then .error .stackSize else .ok s

/-- `pc == pend`. -/
def EvalState.finished (s : EvalState) : Bool := s.pc.isEmpty

/-- The loop; every turn consumes a byte, so the length of the script is fuel enough. -/
def evalLoop (fuel : ℕ) (s : EvalState) : Except ScriptError EvalState :=
  Machine.run (step c) EvalState.finished .unknownError fuel s

/-- The state in which the loop starts. -/
def EvalState.start (script : CScript) (stack : List Bytes) : EvalState :=
  ⟨script, stack, [], [], 0, script⟩

/-- `EvalScript` of the script of the context: the stack it leaves. -/
def evalScript (stack : List Bytes) : Except ScriptError (List Bytes) :=
  if c.script.length > MAX_SCRIPT_SIZE then .error .scriptSize
  else (evalLoop c c.script.length (.start c.script stack)).bind fun s =>
    if s.vfExec.isEmpty then .ok s.stack else .error .unbalancedConditional

/-- The top of a stack is true. -/
def topTrue : List Bytes → Bool
  | [] => false
  | top :: _ => castToBool top

/-- `VerifyScript`. -/
def verifyScript (E : ScriptEnv) (scriptSig scriptPubKey : CScript) (flags : UInt32)
    (checker : SignatureChecker) (sigversion : SigVersion) : Except ScriptError Unit :=
  if hasFlag flags SCRIPT_VERIFY_SIGPUSHONLY && !CScript.isPushOnly scriptSig then
    .error .sigPushonly
  else
    (evalScript ⟨E, scriptSig, flags, checker, sigversion⟩ []).bind fun stackCopy =>
      (evalScript ⟨E, scriptPubKey, flags, checker, sigversion⟩ stackCopy).bind fun stack =>
        if !topTrue stack then .error .evalFalse
        else if hasFlag flags SCRIPT_VERIFY_P2SH && CScript.isPayToScriptHash scriptPubKey then
          if !CScript.isPushOnly scriptSig then .error .sigPushonly
          else match stackCopy with
            | [] => .error .unknownError
            | pubKeySerialized :: stackCopy =>
              (evalScript ⟨E, pubKeySerialized, flags, checker, sigversion⟩ stackCopy).bind
                fun stack => if topTrue stack then .ok () else .error .evalFalse
        else .ok ()

end Script

/-! ## The checker of a transaction

`TransactionSignatureChecker` of `interpreter.cpp`, for one input of a transaction and the
amount it spends. Of `SignatureHash` the checks at its start are kept, in particular that it
throws for a transaction of the Sapling version with another signature version; the hash
itself is not opened.
-/

/-- `NOT_AN_INPUT`. -/
def NOT_AN_INPUT : ℕ := 2 ^ 32 - 1

/-- `TransactionSignatureChecker`. -/
structure TransactionSignatureChecker where
  env : ScriptEnv
  txTo : CTransaction
  nIn : ℕ
  amount : ℤ

open MachineNumber

namespace TransactionSignatureChecker

variable (t : TransactionSignatureChecker)

/-- `SignatureHash`: nothing where it throws. -/
def signatureHash (scriptCode : CScript) (nHashType : UInt8) (sigversion : SigVersion) :
    Option Uint256 :=
  if t.nIn ≥ t.txTo.vin.length ∧ t.nIn ≠ NOT_AN_INPUT then some (BaseUint.ofNat 1)
  else if t.txTo.isSaplingVersion ∧ sigversion ≠ .sapling then none
  else some (t.env.sighash scriptCode t.txTo t.nIn nHashType t.amount sigversion)

/-- `CheckSig`. -/
def checkSig (vchSigIn vchPubKey : Bytes) (scriptCode : CScript) (sigversion : SigVersion) :
    Option Bool :=
  let pubkey := CPubKey.ofBytes vchPubKey
  if !pubkey.isValid then some false
  else match vchSigIn.getLast? with
    | none => some false
    | some nHashType =>
      (t.signatureHash scriptCode nHashType sigversion).map fun sighash =>
        t.env.pubKeyVerify pubkey.vch sighash vchSigIn.dropLast

/-- `CheckLockTime`; nothing where it reads an input that does not exist. -/
def checkLockTime (nLockTime : ℤ) : Option Bool :=
  let txLockTime : ℤ := t.txTo.nLockTime.toNat
  if ¬ ((txLockTime < LOCKTIME_THRESHOLD ∧ nLockTime < LOCKTIME_THRESHOLD) ∨
      (txLockTime ≥ LOCKTIME_THRESHOLD ∧ nLockTime ≥ LOCKTIME_THRESHOLD)) then some false
  else if nLockTime > txLockTime then some false
  else match t.txTo.vin[t.nIn]? with
    | none => none
    | some txin => some !txin.isFinal

/-- The loop of `CheckColdStake` over the outputs from index `i` on: the value that goes to the
script, or nothing where the function returns `false`. -/
def coldStakeValue (prevoutScript : CScript) (outs : ℕ) : ℕ → List CTxOut → ℤ → Option ℤ
  | _, [], outValue => some outValue
  | i, out :: rest, outValue =>
    if out.scriptPubKey ≠ prevoutScript then
      if i ≠ outs - 1 ∨ outs < 3 then none
      else coldStakeValue prevoutScript outs (i + 1) rest outValue
    else coldStakeValue prevoutScript outs (i + 1) rest (toInt64 (outValue + out.nValue))

/-- `CheckColdStake`. -/
def checkColdStake (prevoutScript : CScript) : Bool :=
  if !t.txTo.isCoinStake then false
  else if t.txTo.vin.length ≠ 1 then false
  else (coldStakeValue prevoutScript t.txTo.vout.length 1 (t.txTo.vout.drop 1) 0).any (· > t.amount)

/-- The checker as the interpreter sees it. -/
def toSignatureChecker : SignatureChecker := ⟨t.checkSig, t.checkLockTime, t.checkColdStake⟩

end TransactionSignatureChecker

/-! ## Rules for running scripts

How a run of `EvalScript` comes apart: every turn consumes at least a byte and nothing but the
position moves on, so that a script that succeeds has succeeded opcode by opcode.
-/

open Except Opcode UInt8 CScript

/-! ## Reading an opcode -/

namespace CScript

/-- The length bytes of a push are behind what is left. -/
theorem length_pushSize {opcode : UInt8} {pc pc' : CScript} {nSize : ℕ}
    (h : pushSize opcode pc = some (nSize, pc')) : pc'.length ≤ pc.length := by
  unfold pushSize at h
  split_ifs at h <;> simp only [Option.some.injEq] at h <;> obtain ⟨-, rfl⟩ := h <;>
    simp

/-- **Reading an opcode advances.** -/
theorem length_getOp {pc pc' : CScript} {opcode : UInt8} {data : Bytes}
    (h : getOp pc = some (opcode, data, pc')) : pc'.length < pc.length := by
  cases pc with
  | nil => cases h
  | cons b pc =>
    unfold getOp at h
    dsimp only at h
    split_ifs at h
    · split at h
      · cases h
      · next nSize rest hsize =>
        have hle := length_pushSize hsize
        split_ifs at h
        obtain ⟨-, -, rfl⟩ := h
        rw [List.length_drop, List.length_cons]
        omega
    · obtain ⟨-, -, rfl⟩ := h
      simp

theorem getOp_cons {opcode : UInt8} (h : OP_PUSHDATA4 < opcode) (pc : CScript) :
    getOp (opcode :: pc) = some (opcode, [], pc) := by
  rw [getOp, if_neg (by simpa using h)]

/-- A direct push is read as it was written. -/
theorem getOp_direct {n : UInt8} (h : n < OP_PUSHDATA1) {data : Bytes} (hlen : data.length = n.toNat)
    (pc : CScript) : getOp (n :: (data ++ pc)) = some (n, data, pc) := by
  have hlt : OP_PUSHDATA1 < OP_PUSHDATA4 := by decide
  have hle : n ≤ OP_PUSHDATA4 := UInt8.le_of_lt (UInt8.lt_trans h hlt)
  rw [getOp, if_pos hle, pushSize, if_pos h]
  simp [← hlen]

end CScript

namespace Script

variable {c : EvalContext} {s t : EvalState} {opcode : UInt8} {fExec : Bool}

/-- The opcodes do not move the position. -/
theorem execOp_pc (c : EvalContext) (opcode : UInt8) (fExec : Bool) (s : EvalState) :
    (execOp c opcode fExec s).Post fun t => t.pc = s.pc := by
  repeat' first
    | refine .ite (fun _ => ?_) (fun _ => ?_)
    | exact hstack _
    | exact .error
    | exact .ok rfl
    | exact .map (.of_forall fun _ => rfl)
    | split

/-- An opcode does not move the position. -/
theorem execute_pc (c : EvalContext) (opcode : UInt8) (data : Bytes) (s : EvalState) :
    (execute c opcode data s).Post fun t => t.pc = s.pc := by
  refine .ite (fun _ => .ite (fun _ => .error) fun _ => .ok rfl) fun _ => ?_
  exact .ite (fun _ => execOp_pc c opcode _ s) fun _ => .ok rfl

/-- **A turn of the loop consumes a byte.** -/
theorem step_pc (c : EvalContext) (s : EvalState) :
    (step c s).Post fun t => t.pc.length < s.pc.length := by
  unfold step
  split
  · exact .error
  · next opcode data pc hop =>
    have hlt := length_getOp hop
    refine .ite (fun _ => .error) fun _ => .ite (fun _ => .error) fun _ => .ite (fun _ => .error)
      fun _ => ?_
    refine .bind (execute_pc c opcode data _) fun t ht => ?_
    refine .ite (fun _ => .error) fun _ => .ok ?_
    rw [ht]
    exact hlt

variable {data : Bytes}

/-- **A turn that succeeds** has read an opcode and executed it. -/
theorem step_read {pc : CScript} (hop : getOp s.pc = some (opcode, data, pc))
    (h : step c s = .ok t) :
    ∃ n, execute c opcode data { s with pc := pc, nOpCount := n } = .ok t := by
  unfold step at h
  rw [hop] at h
  obtain ⟨-, h⟩ := guard_eq_ok.mp h
  obtain ⟨-, h⟩ := guard_eq_ok.mp h
  obtain ⟨-, h⟩ := guard_eq_ok.mp h
  obtain ⟨t', hexec, h⟩ := bind_eq_ok.mp h
  obtain ⟨-, h⟩ := guard_eq_ok.mp h
  cases h
  exact ⟨_, hexec⟩

theorem halts (c : EvalContext) :
    Machine.Halts (step c) EvalState.finished fun s => s.pc.length where
  lowers s t h := step_pc c s t h
  ends s h := by rw [EvalState.finished, List.eq_nil_of_length_eq_zero h, List.isEmpty_nil]

/-! ## Runs -/

variable (c) in
/-- The loop, started in a state, ends in another. -/
def Runs (s t : EvalState) : Prop := evalLoop c s.pc.length s = .ok t

theorem runs_of_pc_nil (h : s.pc = []) : Runs c s t ↔ t = s := by
  have hdone : s.finished = true := by rw [EvalState.finished, h, List.isEmpty_nil]
  rw [Runs, evalLoop, Machine.run_of_done hdone, ok.injEq, eq_comm]

theorem runs_of_pc_ne_nil (h : s.pc ≠ []) : Runs c s t ↔ ∃ s', step c s = .ok s' ∧ Runs c s' t :=
  (halts c).run_eq_ok_iff (by simpa [EvalState.finished] using h)

/-- What `EvalScript` returns is the stack at the end of a run. -/
theorem evalScript_eq_ok {stack stack' : List Bytes} :
    evalScript c stack = .ok stack' ↔
      c.script.length ≤ MAX_SCRIPT_SIZE ∧
        ∃ t, Runs c (.start c.script stack) t ∧ t.vfExec = [] ∧ t.stack = stack' := by
  unfold evalScript
  rw [guard_eq_ok, bind_eq_ok, not_lt]
  refine and_congr_right fun _ => exists_congr fun t => and_congr_right fun _ => ?_
  by_cases hexec : t.vfExec = []
  · simp [hexec]
  · simp [hexec]

variable {pc code : CScript} {stack altstack : List Bytes} {vfExec : List Bool} {n : ℕ}

/-- **A run reads an opcode** and executes it. -/
theorem Runs.read {data pc' : CScript} (hop : getOp pc = some (opcode, data, pc'))
    (h : Runs c ⟨pc, stack, altstack, vfExec, n, code⟩ t) :
    ∃ n' s', execute c opcode data ⟨pc', stack, altstack, vfExec, n', code⟩ = .ok s' ∧
      Runs c s' t := by
  have hne : pc ≠ [] := by
    rintro rfl
    cases hop
  obtain ⟨s', hstep, hrest⟩ := (runs_of_pc_ne_nil hne).mp h
  obtain ⟨n', hexec⟩ := step_read hop hstep
  exact ⟨n', s', hexec, hrest⟩

/-- An opcode that pushes no data, in a branch that is taken. -/
theorem Runs.exec (hop : OP_PUSHDATA4 < opcode) (hexec : vfExec.contains false = false)
    (h : Runs c ⟨opcode :: pc, stack, altstack, vfExec, n, code⟩ t) :
    ∃ n' s', execOp c opcode true ⟨pc, stack, altstack, vfExec, n', code⟩ = .ok s' ∧
      Runs c s' t := by
  obtain ⟨n', s', hrun, hrest⟩ := h.read (getOp_cons hop pc)
  have hpush : ¬ opcode ≤ OP_PUSHDATA4 := UInt8.not_le.mpr hop
  unfold execute at hrun
  simp only [hexec, hpush] at hrun
  exact ⟨n', s', hrun, hrest⟩

/-- An opcode in a branch that is not taken does nothing, unless it is about branches. -/
theorem execute_of_not_exec (hexec : s.vfExec.contains false = true)
    (hcond : isConditional opcode = false) (data : Bytes) : execute c opcode data s = .ok s := by
  unfold execute
  simp only [hexec, hcond, Bool.not_true, Bool.false_and, Bool.or_self, Bool.false_eq_true,
    if_false]

/-- An opcode about branches runs in every branch. -/
theorem Runs.conditional (hcond : isConditional opcode = true)
    (h : Runs c ⟨opcode :: pc, stack, altstack, vfExec, n, code⟩ t) :
    ∃ n' s', execOp c opcode (!vfExec.contains false) ⟨pc, stack, altstack, vfExec, n', code⟩ =
      .ok s' ∧ Runs c s' t := by
  have hop : OP_PUSHDATA4 < opcode := by
    have hle : OP_IF ≤ opcode := (of_decide_eq_true hcond).1
    exact UInt8.lt_of_lt_of_le (by decide) hle
  obtain ⟨n', s', hrun, hrest⟩ := h.read (getOp_cons hop pc)
  have hpush : ¬ opcode ≤ OP_PUSHDATA4 := UInt8.not_le.mpr hop
  unfold execute at hrun
  simp only [hcond, hpush, decide_false, Bool.and_false, Bool.or_true] at hrun
  exact ⟨n', s', hrun, hrest⟩

/-- Any other opcode in a branch that is not taken is passed over. -/
theorem Runs.skip (hop : OP_PUSHDATA4 < opcode) (hcond : isConditional opcode = false)
    (hexec : vfExec.contains false = true)
    (h : Runs c ⟨opcode :: pc, stack, altstack, vfExec, n, code⟩ t) :
    ∃ n', Runs c ⟨pc, stack, altstack, vfExec, n', code⟩ t := by
  obtain ⟨n', s', hrun, hrest⟩ := h.read (getOp_cons hop pc)
  rw [execute_of_not_exec hexec hcond] at hrun
  cases hrun
  exact ⟨n', hrest⟩

/-- **A direct push in a branch that is taken.** -/
theorem Runs.push {k : UInt8} (hk : k < OP_PUSHDATA1) (hlen : data.length = k.toNat)
    (hexec : vfExec.contains false = false)
    (h : Runs c ⟨k :: (data ++ pc), stack, altstack, vfExec, n, code⟩ t) :
    ∃ n', Runs c ⟨pc, data :: stack, altstack, vfExec, n', code⟩ t := by
  obtain ⟨n', s', hpush, hrest⟩ := h.read (getOp_direct hk hlen pc)
  have hle : k ≤ OP_PUSHDATA4 := UInt8.le_of_lt (UInt8.lt_trans hk (by decide))
  unfold execute at hpush
  simp only [hexec, hle] at hpush
  obtain ⟨-, hpush⟩ := guard_eq_ok.mp hpush
  cases hpush
  exact ⟨n', hrest⟩

/-- A direct push in a branch that is not taken. -/
theorem Runs.skipPush {k : UInt8} (hk : k < OP_PUSHDATA1) (hlen : data.length = k.toNat)
    (hexec : vfExec.contains false = true)
    (h : Runs c ⟨k :: (data ++ pc), stack, altstack, vfExec, n, code⟩ t) :
    ∃ n', Runs c ⟨pc, stack, altstack, vfExec, n', code⟩ t := by
  obtain ⟨n', s', hpush, hrest⟩ := h.read (getOp_direct hk hlen pc)
  have hcond : isConditional k = false := by
    have hlt : k < OP_IF := UInt8.lt_trans hk (by decide)
    simp [isConditional, hlt]
  rw [execute_of_not_exec hexec hcond] at hpush
  cases hpush
  exact ⟨n', hrest⟩

end Script

end Passion
