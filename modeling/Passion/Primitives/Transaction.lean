import Passion.Consensus.Params
import Passion.Primitives.Script

/-!
# Transactions

The types of `primitives/transaction.h` and `sapling/sapling_transaction.h`, their
serialization, and the predicates consensus code asks of a transaction. The two fields of
`CTxOut` that no consensus code sets (`nRounds`, `fWSSFundingTransaction`) are left out.
-/

namespace Passion

/-! ## How a validation function ends

It returns `true`, or `false` with or without a verdict in its `CValidationState`, or it does not
return: it throws, an assertion stops the process, or it reads outside an array.
-/

/-- `REJECT_INVALID`. -/
def REJECT_INVALID : ℕ := 0x10

/-- `REJECT_OBSOLETE`. -/
def REJECT_OBSOLETE : ℕ := 0x11

/-- `REJECT_NONSTANDARD`. -/
def REJECT_NONSTANDARD : ℕ := 0x40

/-- `REJECT_CHECKPOINT`. -/
def REJECT_CHECKPOINT : ℕ := 0x43

/-- The verdict `CValidationState::DoS` records. -/
structure Reject where
  nDoS : ℕ
  chRejectCode : ℕ
  strRejectReason : String
  corruptionPossible : Bool
  deriving DecidableEq

/-- The ways a function does not succeed. -/
inductive Failure
  /-- It returns `false` and the state holds the verdict. -/
  | invalid (verdict : Reject)
  /-- It returns `false` and the state is untouched. -/
  | error (message : String)
  /-- `CValidationState::Error`, for instance from `AbortNode`. -/
  | systemError (message : String)
  /-- It throws. -/
  | exception (what : String)
  /-- An assertion fails and the process stops. -/
  | assertion (condition : String)
  /-- It accesses an element that does not exist. -/
  | outOfBounds (access : String)
  deriving DecidableEq

/-- The function returned, with `false`. -/
def Failure.isReturn : Failure → Bool
  | .invalid _ => true
  | .error _ => true
  | .systemError _ => true
  | .exception _ => false
  | .assertion _ => false
  | .outOfBounds _ => false

/-- The result of a validation function. -/
abbrev Result (α : Type*) := Except Failure α

/-- `state.DoS(level, ..., code, reason)`. -/
def dos {α : Type*} (level code : ℕ) (reason : String) : Result α :=
  .error (.invalid ⟨level, code, reason, false⟩)

/-- `state.DoS(level, ..., code, reason, corruptionIn = true)`. -/
def dosCorruption {α : Type*} (level code : ℕ) (reason : String) : Result α :=
  .error (.invalid ⟨level, code, reason, true⟩)

/-- **The function returns**, `true` or `false`: it does not throw, no assertion fails and it
accesses no element that does not exist. -/
def Result.Returns {α : Type*} : Result α → Prop
  | .ok _ => True
  | .error e => e.isReturn = true

/-- A sequence returns exactly if its first part does and, where that succeeds, so does the
second. -/
theorem Result.returns_bind_iff {α β : Type*} {x : Result α} {f : α → Result β} :
    Returns (x.bind f) ↔ Returns x ∧ ∀ a, x = .ok a → Returns (f a) := by
  cases x with
  | ok a => simp [Returns, Except.bind]
  | error e => simp [Returns, Except.bind]

/-! ## The types -/

/-- An array of exactly `n` bytes. -/
abbrev ByteArrayN (n : ℕ) := { l : Bytes // l.length = n }

/-- An array of zero bytes. -/
def ByteArrayN.zeros (n : ℕ) : ByteArrayN n := ⟨List.replicate n 0, List.length_replicate⟩

/-- The first `n` bytes of a byte string, with zeros where it is shorter. -/
def ByteArrayN.firstBytes (n : ℕ) (b : Bytes) : ByteArrayN n :=
  ⟨(b ++ List.replicate n 0).take n, by simp⟩

/-- `COutPoint`. -/
structure COutPoint where
  hash : Uint256
  n : UInt32
  deriving DecidableEq

/-- `CTxIn`. -/
structure CTxIn where
  prevout : COutPoint
  scriptSig : CScript
  nSequence : UInt32
  deriving DecidableEq

/-- `CTxOut`. -/
structure CTxOut where
  nValue : ℤ
  scriptPubKey : CScript
  deriving DecidableEq

/-- `SpendDescription`. -/
structure SpendDescription where
  cv : Uint256
  anchor : Uint256
  nullifier : Uint256
  rk : Uint256
  zkproof : ByteArrayN 192
  spendAuthSig : ByteArrayN 64
  deriving DecidableEq

/-- `OutputDescription`. -/
structure OutputDescription where
  cv : Uint256
  cmu : Uint256
  ephemeralKey : Uint256
  encCiphertext : ByteArrayN 580
  outCiphertext : ByteArrayN 80
  zkproof : ByteArrayN 192
  deriving DecidableEq

/-- `SaplingTxData`. -/
structure SaplingTxData where
  valueBalance : ℤ
  vShieldedSpend : List SpendDescription
  vShieldedOutput : List OutputDescription
  bindingSig : ByteArrayN 64
  deriving DecidableEq

/-- `SaplingTxData()`. -/
def SaplingTxData.empty : SaplingTxData where
  valueBalance := 0
  vShieldedSpend := []
  vShieldedOutput := []
  bindingSig := .zeros 64

/-- `CTransaction`. -/
structure CTransaction where
  nVersion : ℤ
  nType : ℤ
  vin : List CTxIn
  vout : List CTxOut
  nLockTime : UInt32
  sapData : Option SaplingTxData
  extraPayload : Option Bytes
  deriving DecidableEq

/-- A transaction with inputs and outputs only. -/
def CTransaction.plain (vin : List CTxIn) (vout : List CTxOut) : CTransaction where
  nVersion := 1
  nType := 0
  vin := vin
  vout := vout
  nLockTime := 0
  sapData := some .empty
  extraPayload := none

/-- `CTxIn::IsFinal`. -/
def CTxIn.isFinal (i : CTxIn) : Bool := i.nSequence == 0xffffffff

namespace COutPoint

/-- `SetNull`. -/
def null : COutPoint := ⟨BaseUint.zero, 0xffffffff⟩

/-- `IsNull`. -/
def isNull (o : COutPoint) : Bool := o.hash.isNull && o.n == 0xffffffff

end COutPoint

/-- A coinbase with inputs and outputs only. -/
def CTransaction.coinbase (scriptSig : CScript) (vout : List CTxOut) : CTransaction :=
  .plain [⟨.null, scriptSig, 0xffffffff⟩] vout

namespace CTxOut

/-- `SetNull`. -/
def null : CTxOut := ⟨-1, []⟩

/-- `IsNull`. -/
def isNull (out : CTxOut) : Bool := out.nValue == -1

/-- `IsEmpty`. -/
def isEmpty (out : CTxOut) : Bool := out.nValue == 0 && out.scriptPubKey.isEmpty

end CTxOut

/-- `SaplingTxData::hasBindingSig`. -/
def SaplingTxData.hasBindingSig (s : SaplingTxData) : Bool := s.bindingSig.val.any (· != 0)

/-! ## Serialization -/

/-- The two's complement bytes of a signed field of `k` bytes. -/
def intBytes (k : ℕ) (n : ℤ) : Bytes := Bytes.ofNatLE k (n % (256 ^ k : ℕ)).toNat

/-- `WriteCompactSize`. -/
def compactSize (n : ℕ) : Bytes :=
  if n < 253 then [UInt8.ofNat n]
  else if n ≤ 0xffff then 253 :: Bytes.ofNatLE 2 n
  else if n ≤ 0xffffffff then 254 :: Bytes.ofNatLE 4 n
  else 255 :: Bytes.ofNatLE 8 n

/-- A larger number is not written shorter. -/
theorem length_compactSize_mono {m n : ℕ} (h : m ≤ n) :
    (compactSize m).length ≤ (compactSize n).length := by
  unfold compactSize
  split_ifs <;> simp <;> omega

/-- The serialization of a vector: the count and the elements. -/
def vectorBytes {α : Type*} (ser : α → Bytes) (v : List α) : Bytes :=
  compactSize v.length ++ v.flatMap ser

/-- The serialization of an `Optional`: a discriminant byte and the value. -/
def optionalBytes {α : Type*} (ser : α → Bytes) : Option α → Bytes
  | none => [0]
  | some a => 1 :: ser a

/-- The serialization of a byte vector or a script. -/
def varBytes (b : Bytes) : Bytes := compactSize b.length ++ b

def COutPoint.serialize (o : COutPoint) : Bytes := o.hash.toBytes ++ Bytes.ofNatLE 4 o.n.toNat

def CTxIn.serialize (i : CTxIn) : Bytes :=
  i.prevout.serialize ++ varBytes i.scriptSig ++ Bytes.ofNatLE 4 i.nSequence.toNat

def CTxOut.serialize (o : CTxOut) : Bytes := intBytes 8 o.nValue ++ varBytes o.scriptPubKey

def SpendDescription.serialize (s : SpendDescription) : Bytes :=
  s.cv.toBytes ++ s.anchor.toBytes ++ s.nullifier.toBytes ++ s.rk.toBytes ++ s.zkproof.val ++
    s.spendAuthSig.val

def OutputDescription.serialize (o : OutputDescription) : Bytes :=
  o.cv.toBytes ++ o.cmu.toBytes ++ o.ephemeralKey.toBytes ++ o.encCiphertext.val ++
    o.outCiphertext.val ++ o.zkproof.val

def SaplingTxData.serialize (s : SaplingTxData) : Bytes :=
  intBytes 8 s.valueBalance ++ vectorBytes SpendDescription.serialize s.vShieldedSpend ++
    vectorBytes OutputDescription.serialize s.vShieldedOutput ++ s.bindingSig.val

/-- The two hash functions of `hash.h` over a byte string: double SHA-256 and Quark. -/
structure Hashing where
  hash : Bytes → Uint256
  hashQuark : Bytes → Uint256

namespace CTransaction

/-- `isSaplingVersion`. -/
def isSaplingVersion (tx : CTransaction) : Bool := decide (tx.nVersion ≥ 3)

/-- `IsNormalType`. -/
def isNormalType (tx : CTransaction) : Bool := tx.nType == 0

/-- `SerializeTransaction`. -/
def serialize (tx : CTransaction) : Bytes :=
  intBytes 2 tx.nVersion ++ intBytes 2 tx.nType ++ vectorBytes CTxIn.serialize tx.vin ++
    vectorBytes CTxOut.serialize tx.vout ++ Bytes.ofNatLE 4 tx.nLockTime.toNat ++
    if tx.isSaplingVersion then
      optionalBytes SaplingTxData.serialize tx.sapData ++
        if tx.isNormalType then [] else optionalBytes varBytes tx.extraPayload
    else []

/-- `GetTotalSize`. -/
def getTotalSize (tx : CTransaction) : ℕ := tx.serialize.length

/-- `GetHash`. -/
def getHash (H : Hashing) (tx : CTransaction) : Uint256 := H.hash tx.serialize

/-! ## Predicates and values -/

/-- `hasSaplingData`. -/
def hasSaplingData (tx : CTransaction) : Bool :=
  match tx.sapData with
  | none => false
  | some s => !s.vShieldedOutput.isEmpty || !s.vShieldedSpend.isEmpty || s.valueBalance != 0 ||
      s.hasBindingSig

/-- `IsShieldedTx`. -/
def isShieldedTx (tx : CTransaction) : Bool := tx.isSaplingVersion && tx.hasSaplingData

/-- `hasExtraPayload`. -/
def hasExtraPayload (tx : CTransaction) : Bool :=
  match tx.extraPayload with
  | none => false
  | some p => !p.isEmpty

/-- `IsCoinBase`. -/
def isCoinBase (tx : CTransaction) : Bool :=
  match tx.vin with
  | [i] => i.prevout.isNull
  | _ => false

/-- `IsCoinStake`. -/
def isCoinStake (tx : CTransaction) : Bool :=
  match tx.vin with
  | [] => false
  | i :: _ =>
    if i.prevout.isNull then false
    else match tx.vout with
      | o :: _ :: _ => o.isEmpty
      | _ => false

/-- `HasP2CSOutputs`. -/
def hasP2CSOutputs (tx : CTransaction) : Bool :=
  tx.vout.any fun out => CScript.isPayToColdStaking out.scriptPubKey

/-- The shielded spends of the transaction, as `SetNullifiers` and the value checks read
them. -/
def shieldedSpends (tx : CTransaction) : List SpendDescription :=
  match tx.sapData with
  | none => []
  | some s => s.vShieldedSpend

/-- The shielded outputs of the transaction. -/
def shieldedOutputs (tx : CTransaction) : List OutputDescription :=
  match tx.sapData with
  | none => []
  | some s => s.vShieldedOutput

/-- The loop of `GetValueOut` over the outputs. -/
def sumOutputs : ℤ → List CTxOut → Result ℤ
  | nValueOut, [] => .ok nValueOut
  | nValueOut, out :: outs =>
    if out.nValue < 0 then
      .error (.exception "CTransaction::GetValueOut() : value out of range : less than 0")
    else if nValueOut + out.nValue ≥ 2 ^ 63 then
      .error (.exception ("CTransaction::GetValueOut() : value out of range : " ++
        "wraps the int64_t boundary"))
    else sumOutputs (nValueOut + out.nValue) outs

/-- The part of `GetValueOut` and `GetShieldedValueIn` that reads `valueBalance`. A negative
balance takes from the transparent pool, a positive one gives to it. -/
def shieldedValue (tx : CTransaction) (takes : ℤ → Bool) : Result ℤ :=
  match tx.sapData with
  | none => .ok 0
  | some s =>
    if tx.hasSaplingData && takes s.valueBalance then
      if tx.isSaplingVersion then .ok s.valueBalance.natAbs
      else .error (.exception "GetValueOut(): invalid tx version")
    else .ok 0

/-- `GetValueOut`. -/
def getValueOut (tx : CTransaction) : Result ℤ :=
  (sumOutputs 0 tx.vout).bind fun nValueOut =>
    (tx.shieldedValue fun b => decide (b < 0)).bind fun shielded => .ok (nValueOut + shielded)

/-- `GetShieldedValueIn`. -/
def getShieldedValueIn (tx : CTransaction) : Result ℤ :=
  tx.shieldedValue fun b => decide (b > 0)

end CTransaction

/-! ## Blocks

`CBlockHeader` and `CBlock` of `primitives/block.h`. A block keeps the memory-only flag
`fChecked`, which `CheckBlock` sets after a successful full check and returns on.
-/

/-- `CBlock`, with the fields of `CBlockHeader` first. -/
structure CBlock where
  nVersion : ℤ
  hashPrevBlock : Uint256
  hashMerkleRoot : Uint256
  nTime : UInt32
  nBits : UInt32
  nNonce : UInt32
  hashFinalSaplingRoot : Uint256
  vtx : List CTransaction
  vchBlockSig : Bytes
  fChecked : Bool
  deriving DecidableEq

namespace CBlock

/-- The six header fields that every version serializes. -/
def serializeLegacyHeader (block : CBlock) : Bytes :=
  intBytes 4 block.nVersion ++ block.hashPrevBlock.toBytes ++ block.hashMerkleRoot.toBytes ++
    Bytes.ofNatLE 4 block.nTime.toNat ++ Bytes.ofNatLE 4 block.nBits.toNat ++
    Bytes.ofNatLE 4 block.nNonce.toNat

/-- The serialization of `CBlockHeader`. -/
def serializeHeader (block : CBlock) : Bytes :=
  block.serializeLegacyHeader ++
    if block.nVersion ≥ 8 then block.hashFinalSaplingRoot.toBytes else []

/-- `CBlockHeader::GetHash`. -/
def getHash (H : Hashing) (block : CBlock) : Uint256 :=
  if block.nVersion < 4 then H.hashQuark block.serializeLegacyHeader
  else H.hash block.serializeHeader

/-- `GetBlockTime`. -/
def getBlockTime (block : CBlock) : ℤ := block.nTime.toNat

/-- `IsProofOfStake`. -/
def isProofOfStake (block : CBlock) : Bool :=
  match block.vtx with
  | _ :: tx :: _ => tx.isCoinStake
  | _ => false

/-- `IsProofOfWork`. -/
def isProofOfWork (block : CBlock) : Bool := !block.isProofOfStake

/-- The serialization of `CBlock`; the signature is written for proof-of-stake blocks only. -/
def serialize (block : CBlock) : Bytes :=
  block.serializeHeader ++ vectorBytes CTransaction.serialize block.vtx ++
    if block.isProofOfStake then varBytes block.vchBlockSig else []

/-- The block with the memory-only flag set. -/
def setChecked (block : CBlock) : CBlock := { block with fChecked := true }

end CBlock

/-! ## What validation takes from outside

The primitives consensus code calls and this development does not open: hash functions,
the script interpreter, signature and proof verification. They are fields of a record, and
every theorem holds for any choice of them.
-/

/-- The external functions of the node. -/
structure Env extends Hashing where
  /-- `PedersenHash::combine(a, b, depth)`. -/
  pedersenCombine : Uint256 → Uint256 → ℕ → Uint256
  /-- `PedersenHash::EmptyRoot(depth)`, a table of constants. -/
  pedersenEmptyRoot : ℕ → Uint256
  /-- `VerifyScript(scriptSig, scriptPubKey, flags, checker of input nIn of tx for amount)`:
  nothing, or the text of the script error. -/
  verifyScript : CScript → CScript → ℕ → CTransaction → ℕ → ℤ → Option String
  /-- `SignatureHash(CScript(), tx, NOT_AN_INPUT, SIGHASH_ALL, 0, SIGVERSION_SAPLING)`. -/
  saplingSignatureHash : CTransaction → Uint256
  /-- `librustzcash_sapling_check_spend` on a spend and the signature hash. -/
  saplingCheckSpend : SpendDescription → Uint256 → Bool
  /-- `librustzcash_sapling_check_output`. -/
  saplingCheckOutput : OutputDescription → Bool
  /-- `librustzcash_sapling_final_check` on what the verification context has seen. -/
  saplingFinalCheck : SaplingTxData → Uint256 → Bool
  /-- `CPubKey(bytes).IsFullyValid()`. -/
  pubKeyIsFullyValid : Bytes → Bool
  /-- `CPubKey(bytes).Decompress()`: the uncompressed key, for a key that can be
  decompressed. -/
  pubKeyDecompress : Bytes → Option Bytes
  /-- `CPubKey(bytes).Verify(hash, sig)`. -/
  pubKeyVerify : Bytes → Uint256 → Bytes → Bool
  /-- `std::abs(n1 - n2) > n1 * 0.5` of `CheckWork`, in floating point, for the numbers
  `ConvertBitsToDouble` makes of two `nBits`. -/
  bitsFarApart : UInt32 → UInt32 → Bool

instance : CoeOut Env Hashing := ⟨Env.toHashing⟩

/-- A small hash function that can be run by hand, for concrete inputs. -/
def sampleHash (b : Bytes) : Uint256 :=
  BaseUint.ofNat (b.foldl (fun acc x => (acc * 257 + x.toNat) % 2305843009213693951) 1)

/-- External functions that can be run by hand, for concrete inputs: every script, proof and
signature is accepted, and no key is decompressed. -/
def sampleEnv : Env where
  hash := sampleHash
  hashQuark := sampleHash
  pedersenCombine := fun a b d =>
    if a = BaseUint.ofNat (d + 1) ∧ b = BaseUint.ofNat (d + 1) then BaseUint.ofNat (d + 2)
    else sampleHash (UInt8.ofNat d :: a.toBytes ++ b.toBytes)
  pedersenEmptyRoot := fun d => BaseUint.ofNat (d + 1)
  verifyScript := fun _ _ _ _ _ _ => none
  saplingSignatureHash := fun tx => sampleHash tx.serialize
  saplingCheckSpend := fun _ _ => true
  saplingCheckOutput := fun _ => true
  saplingFinalCheck := fun _ _ => true
  pubKeyIsFullyValid := fun _ => false
  pubKeyDecompress := fun _ => none
  pubKeyVerify := fun _ _ _ => true
  bitsFarApart := fun a b => a != b

/-! ## Keys and destinations

`CPubKey` of `pubkey.h`, `CKey` of `key.h` and `CTxDestination` of `script/standard.h`, with
the functions of the key code that this development does not open.
-/

/-- `CPubKey::GetLen`. -/
def pubKeyLen (chHeader : UInt8) : ℕ :=
  if chHeader = 2 ∨ chHeader = 3 then 33
  else if chHeader = 4 ∨ chHeader = 6 ∨ chHeader = 7 then 65
  else 0

/-- `CPubKey::ValidSize`. -/
def pubKeyValidSize (vch : Bytes) : Bool :=
  match vch with
  | [] => false
  | header :: _ => pubKeyLen header == vch.length

/-- `CPubKey`: the bytes of `vch` up to `size()`. A key whose first byte stands for no length
is invalid and has none. -/
structure CPubKey where
  vch : Bytes
  sized : vch = [] ∨ pubKeyValidSize vch = true
  deriving DecidableEq

/-- `CKeyID`. -/
abbrev CKeyID := ByteArrayN 20

/-- `CScriptID`. -/
abbrev CScriptID := ByteArrayN 20

/-- `CTxDestination`. -/
inductive CTxDestination
  | noDestination
  | keyID (id : CKeyID)
  | scriptID (id : CScriptID)
  deriving DecidableEq

/-- `CKey` with `fValid`; an invalid key is no key. -/
structure CKey where
  keydata : ByteArrayN 32
  fCompressed : Bool
  deriving DecidableEq

/-- The functions on keys that are not opened: hashing and the curve. -/
structure KeyOps where
  /-- `Hash160`. -/
  hash160 : Bytes → ByteArrayN 20
  /-- `CKey::Check`. -/
  checkSecret : ByteArrayN 32 → Bool
  /-- `CKey::GetPubKey`. -/
  getPubKey : CKey → CPubKey
  /-- `CKey::SignCompact`. -/
  signCompact : CKey → Uint256 → Option Bytes
  /-- `CPubKey::RecoverCompact`. -/
  recoverCompact : Uint256 → Bytes → Option CPubKey
  /-- `secp256k1_ec_pubkey_parse` and `secp256k1_ecdh`: nothing where one of them fails. -/
  ecdh : Bytes → CKey → Option Uint256

namespace CPubKey

/-- `CPubKey()`. -/
def invalid : CPubKey := ⟨[], .inl rfl⟩

/-- `CPubKey(const std::vector<unsigned char>&)`. -/
def ofBytes (vch : Bytes) : CPubKey :=
  if h : pubKeyValidSize vch = true then ⟨vch, .inr h⟩ else invalid

/-- `IsValid`. -/
def isValid (k : CPubKey) : Bool := !k.vch.isEmpty

/-- `GetID`. -/
def getID (K : KeyOps) (k : CPubKey) : CKeyID := K.hash160 k.vch

/-- The serialization, as if the key was a byte vector. -/
def serialize (k : CPubKey) : Bytes := varBytes k.vch

end CPubKey

/-! ## The Merkle root of a block

`MerkleComputation` of `consensus/merkle.cpp`, without the branch it can also extract. The
array `inner` holds, level by level, the hashes of complete subtrees.
-/

/-- The hash of two nodes. -/
def merkleParent (H : Hashing) (a b : Uint256) : Uint256 := H.hash (a.toBytes ++ b.toBytes)

/-- Climbs from `level` through the zero bits of `count`, at most `fuel` of them, combining
with the stored hashes: the level reached, the hash there and whether two equal hashes met. -/
def merkleClimb (H : Hashing) (inner : List Uint256) (count : ℕ) :
    ℕ → ℕ → Uint256 → Bool → ℕ × Uint256 × Bool
  | 0, level, h, mutated => (level, h, mutated)
  | fuel + 1, level, h, mutated =>
    if count / 2 ^ level % 2 = 1 then (level, h, mutated)
    else
      let left := inner.getD level BaseUint.zero
      merkleClimb H inner count fuel (level + 1) (merkleParent H left h) (mutated || left == h)

/-- The first loop: all leaves are processed into `inner`. -/
def merkleLeaves (H : Hashing) :
    List Uint256 → ℕ → List Uint256 → Bool → ℕ × List Uint256 × Bool
  | [], count, inner, mutated => (count, inner, mutated)
  | leaf :: leaves, count, inner, mutated =>
    let (level, h, mutated') := merkleClimb H inner (count + 1) 32 0 leaf mutated
    merkleLeaves H leaves (count + 1) (inner.set level h) mutated'

/-- The final sweep over the rightmost branch: odd levels are combined with themselves. -/
def merkleSweep (H : Hashing) (inner : List Uint256) : ℕ → ℕ → ℕ → Uint256 → Uint256
  | 0, _, _, h => h
  | fuel + 1, count, level, h =>
    if count = 2 ^ level then h
    else
      let count' := count + 2 ^ level
      let (level', h', _) := merkleClimb H inner count' 32 (level + 1) (merkleParent H h h) false
      merkleSweep H inner fuel count' level' h'

/-- The first level at which `count` has a bit. -/
def lowestBit (count : ℕ) : ℕ → ℕ → ℕ
  | 0, level => level
  | fuel + 1, level => if count / 2 ^ level % 2 = 1 then level else lowestBit count fuel (level + 1)

/-- `ComputeMerkleRoot`: the root, and whether the list is mutated. -/
def computeMerkleRoot (H : Hashing) (leaves : List Uint256) : Uint256 × Bool :=
  if leaves.isEmpty then (BaseUint.zero, false)
  else
    let (count, inner, mutated) :=
      merkleLeaves H leaves 0 (List.replicate 32 BaseUint.zero) false
    let level := lowestBit count 32 0
    (merkleSweep H inner 32 count level (inner.getD level BaseUint.zero), mutated)

/-- `BlockMerkleRoot`. -/
def blockMerkleRoot (H : Hashing) (block : CBlock) : Uint256 × Bool :=
  computeMerkleRoot H (block.vtx.map (·.getHash H))

end Passion
