import Passion.Script.Standard
import Passion.Validation.Node

/-!
# Block signatures

`CheckBlockSignature` of `blocksignature.cpp`. For an output that pays to a key hash the public
key is taken from the script signature of the first input of the coinstake, at offsets computed
from the bytes found there.
-/

namespace Passion

open Opcode

/-- `txnouttype` with the solutions `CheckBlockSignature` uses. The types it has no use for
are one. -/
inductive TxnOutType
  | pubkey (vchPubKey : Bytes)
  | pubkeyhash
  | coldstake
  | other
  deriving DecidableEq

/-- `Solver`, as far as `CheckBlockSignature` looks at its result. -/
def solver (script : CScript) : TxnOutType :=
  match Script.solver script with
  | some (.pubkey, [vch]) => .pubkey vch
  | some (.pubkeyhash, _) => .pubkeyhash
  | some (.coldstake, _) => .coldstake
  | _ => .other

/-- `*(script.begin() + i)`. -/
def readByte (script : CScript) (i : ℕ) : Result ℕ :=
  match script[i]? with
  | none => .error (.outOfBounds "txin.scriptSig.begin()")
  | some b => .ok b.toNat

/-- `CPubKey(script.begin() + i, script.end())`: the key, if it is one. -/
def pubKeyFrom (script : CScript) (i : ℕ) : Result (Option Bytes) :=
  if i = script.length then .ok none
  else (readByte script i).bind fun header =>
    if pubKeyLen (UInt8.ofNat header) = script.length - i then .ok (some (script.drop i))
    else .ok none

/-- The public key that has to sign the block, from the type of the output and the script
signature of the kernel input. -/
def signingKey (scriptSig : CScript) : TxnOutType → Result (Option Bytes)
  | .pubkey vch => .ok (if pubKeyValidSize vch then some vch else none)
  | .pubkeyhash =>
    if scriptSig.length = 73 then .ok none
    else (readByte scriptSig 0).bind fun b => pubKeyFrom scriptSig (1 + b + 1)
  | .coldstake =>
    (readByte scriptSig 0).bind fun b =>
      (readByte scriptSig (1 + b)).bind fun b' => pubKeyFrom scriptSig (1 + b + (1 + b') + 1)
  | .other => .ok none

/-- `CheckBlockSignature`. -/
def checkBlockSignature (E : Env) (block : CBlock) : Result Bool :=
  if block.isProofOfWork then .ok block.vchBlockSig.isEmpty
  else if block.vchBlockSig.isEmpty then .ok false
  else match block.vtx with
    | _ :: tx :: _ =>
      match tx.vin, tx.vout with
      | txin :: _, _ :: txout :: _ =>
        (signingKey txin.scriptSig (solver txout.scriptPubKey)).bind fun key =>
          match key with
          | none => .ok false
          | some vch => .ok (E.pubKeyVerify vch (block.getHash E.toHashing) block.vchBlockSig)
      | _, _ => .error (.outOfBounds "block.vtx[1]->vout[1]")
    | _ => .error (.outOfBounds "block.vtx[1]")

/-! ## Where the offsets stay within the script -/

/-- **The bytes a key is looked for at are there**: the length bytes lie in the script and
skip no more than it has. -/
def KeyOffsetsFit (scriptSig : CScript) : TxnOutType → Prop
  | .pubkeyhash => scriptSig.length ≠ 73 →
      ∃ b ∈ scriptSig[0]?, b.toNat + 2 ≤ scriptSig.length
  | .coldstake =>
      ∃ b ∈ scriptSig[0]?, ∃ b' ∈ scriptSig[1 + b.toNat]?,
        b.toNat + b'.toNat + 3 ≤ scriptSig.length
  | _ => True

variable {script : CScript}

theorem readByte_returns_iff {i : ℕ} : (readByte script i).Returns ↔ i < script.length := by
  unfold readByte
  cases h : script[i]? with
  | none =>
    have hle : script.length ≤ i := List.getElem?_eq_none_iff.mp h
    simp only [Result.Returns, Failure.isReturn, Bool.false_eq_true, false_iff]
    omega
  | some b =>
    obtain ⟨hlt, -⟩ := List.getElem?_eq_some_iff.mp h
    exact ⟨fun _ => hlt, fun _ => trivial⟩

theorem readByte_eq_ok {i n : ℕ} (h : readByte script i = .ok n) :
    ∃ b ∈ script[i]?, b.toNat = n := by
  unfold readByte at h
  cases hb : script[i]? with
  | none => rw [hb] at h; cases h
  | some b =>
    rw [hb] at h
    cases h
    exact ⟨b, rfl, rfl⟩

/-- A key is read within the script exactly if it starts at most at its end. -/
theorem pubKeyFrom_returns_iff {i : ℕ} : (pubKeyFrom script i).Returns ↔ i ≤ script.length := by
  unfold pubKeyFrom
  by_cases hi : i = script.length
  · rw [if_pos hi]
    exact ⟨fun _ => hi.le, fun _ => trivial⟩
  · rw [if_neg hi, Result.returns_bind_iff, readByte_returns_iff]
    constructor
    · rintro ⟨hlt, -⟩
      exact hlt.le
    · intro hle
      refine ⟨by omega, fun header _ => ?_⟩
      split <;> trivial

/-- **`signingKey` reads existing bytes only, and returns, exactly if the offsets fit.** -/
theorem signingKey_returns_iff {scriptSig : CScript} {type : TxnOutType} :
    (signingKey scriptSig type).Returns ↔ KeyOffsetsFit scriptSig type := by
  cases type with
  | pubkey vch => exact ⟨fun _ => trivial, fun _ => trivial⟩
  | other => exact ⟨fun _ => trivial, fun _ => trivial⟩
  | pubkeyhash =>
    simp only [signingKey]
    by_cases h73 : scriptSig.length = 73
    · rw [if_pos h73]
      exact ⟨fun _ h => absurd h73 h, fun _ => trivial⟩
    rw [if_neg h73, Result.returns_bind_iff, readByte_returns_iff]
    constructor
    · rintro ⟨hlt, hkey⟩ -
      have hget : scriptSig[0]? = some scriptSig[0] := List.getElem?_eq_getElem hlt
      refine ⟨_, hget, ?_⟩
      have := pubKeyFrom_returns_iff.mp (hkey scriptSig[0].toNat (by simp [readByte, hget]))
      omega
    · intro h
      obtain ⟨b, hb, hle⟩ := h h73
      refine ⟨by omega, fun n hn => ?_⟩
      obtain ⟨b', hb', rfl⟩ := readByte_eq_ok hn
      obtain rfl : b = b' := Option.some.inj (hb.symm.trans hb')
      exact pubKeyFrom_returns_iff.mpr (by omega)
  | coldstake =>
    simp only [signingKey]
    rw [Result.returns_bind_iff, readByte_returns_iff]
    constructor
    · rintro ⟨hlt, hkey⟩
      have hget : scriptSig[0]? = some scriptSig[0] := List.getElem?_eq_getElem hlt
      refine ⟨_, hget, ?_⟩
      have hflag := hkey scriptSig[0].toNat (by simp [readByte, hget])
      rw [Result.returns_bind_iff, readByte_returns_iff] at hflag
      obtain ⟨hlt', hkey'⟩ := hflag
      have hget' := List.getElem?_eq_getElem hlt'
      refine ⟨_, hget', ?_⟩
      have := pubKeyFrom_returns_iff.mp
        (hkey' scriptSig[1 + scriptSig[0].toNat].toNat (by simp [readByte, hget']))
      omega
    · rintro ⟨b, hb, b', hb', hle⟩
      refine ⟨by omega, fun n hn => ?_⟩
      obtain ⟨c, hc, rfl⟩ := readByte_eq_ok hn
      obtain rfl : b = c := Option.some.inj (hb.symm.trans hc)
      rw [Result.returns_bind_iff, readByte_returns_iff]
      refine ⟨by omega, fun n hn => ?_⟩
      obtain ⟨c, hc', rfl⟩ := readByte_eq_ok hn
      obtain rfl : b' = c := Option.some.inj (hb'.symm.trans hc')
      exact pubKeyFrom_returns_iff.mpr (by omega)

/-- What a proof-of-stake block has: a coinstake as its second transaction. -/
theorem CBlock.exists_coinStake {block : CBlock} (h : block.isProofOfStake = true) :
    ∃ cb tx rest txin vin out₀ out₁ outs, block.vtx = cb :: tx :: rest ∧
      tx.isCoinStake = true ∧ tx.vin = txin :: vin ∧ tx.vout = out₀ :: out₁ :: outs := by
  unfold isProofOfStake at h
  split at h
  · rename_i cb tx rest hvtx
    have hstake := h
    unfold CTransaction.isCoinStake at h
    split at h
    · cases h
    · rename_i txin vin hvin
      split at h
      · cases h
      · split at h
        · rename_i out₀ out₁ outs hvout
          exact ⟨cb, tx, rest, txin, vin, out₀, out₁, outs, hvtx, hstake, hvin, hvout⟩
        · cases h
  · cases h

/-! ## Proof of stake

`NewPivStake` of `stakeinput.cpp`, and `LoadStakeInput` and `CheckProofOfStake` of
`kernel.cpp`. The staked output is looked up by the id of its transaction, in the active
chain of the node, and then taken by the index that the block names.
-/

/-- `STANDARD_SCRIPT_VERIFY_FLAGS`, as a set of bits. -/
def STANDARD_SCRIPT_VERIFY_FLAGS : ℕ := 0xdf

variable (E : Env) (params : CChainParams) (N : NodeState)

/-- Where `NewPivStake` finds the staked transaction: `GetTransaction` knows it, in a block
of the active chain. -/
def findStakeOrigin (hash : Uint256) : Option (CTransaction × CBlockIndex) :=
  (N.getTransaction params E.toHashing hash).bind fun (txPrev, hashBlock) =>
    (N.mapBlockIndex.lookup hashBlock).bind fun pindex =>
      if N.chainContains pindex then some (txPrev, pindex) else none

/-- `CPivStake::NewPivStake`: nothing for a null pointer. -/
def newPivStake (txin : CTxIn) : Result (Option CPivStake) :=
  match findStakeOrigin E params N txin.prevout.hash with
  | none => .ok none
  | some (txPrev, pindexFrom) =>
    match txPrev.vout[txin.prevout.n.toNat]? with
    | none => .error (.outOfBounds "txPrev->vout[txin.prevout.n]")
    | some out => .ok (some ⟨out, txin.prevout, pindexFrom⟩)

/-- `LoadStakeInput`, for a parent that is known. -/
def loadStakeInput (block : CBlock) (pindexPrev : CBlockIndex) : Result (Option CPivStake) :=
  if block.hashPrevBlock ≠ pindexPrev.hashBlock then .ok none
  else if !block.isProofOfStake then .ok none
  else match block.vtx with
    | _ :: tx :: _ =>
      match tx.vin with
      | txin :: _ => newPivStake E params N txin
      | [] => .error (.outOfBounds "block.vtx[1]->vin[0]")
    | _ => .error (.outOfBounds "block.vtx[1]")

/-- The verification of the input signature in `CheckProofOfStake`. -/
def checkStakeSignature (block : CBlock) (stake : CPivStake) : Result Unit :=
  match block.vtx with
  | _ :: tx :: _ =>
    match tx.vin with
    | txin :: _ =>
      match E.verifyScript txin.scriptSig stake.outputFrom.scriptPubKey
          STANDARD_SCRIPT_VERIFY_FLAGS tx 0 stake.outputFrom.nValue with
      | none => .ok ()
      | some serror => .error (.error ("signature fails: " ++ serror))
    | [] => .error (.outOfBounds "tx->vin[0]")
  | _ => .error (.outOfBounds "block.vtx[1]")

/-- `CheckProofOfStake`: success, or the text of `strError`. -/
def checkProofOfStake (block : CBlock) (pindexPrev : CBlockIndex) : Result Unit :=
  (loadStakeInput E params N block pindexPrev).bind fun stakeInput =>
    match stakeInput with
    | none => .error (.error "stake input initialization failed")
    | some stake =>
      let stakeKernel := CStakeKernel.ofStake pindexPrev stake block.nBits block.nTime
      if !stakeKernel.checkKernelHash E.toHashing params then
        .error (.error "kernel hash check fails")
      else checkStakeSignature E block stake

/-! ## Where the checks are total -/

/-- The kernel input: the first input of the second transaction. -/
def CBlock.kernelInput (block : CBlock) : Option CTxIn :=
  match block.vtx with
  | _ :: tx :: _ => tx.vin.head?
  | _ => none

/-- The output whose key signs the block: the second output of the second transaction. -/
def CBlock.signedOutput (block : CBlock) : Option CTxOut :=
  match block.vtx with
  | _ :: tx :: _ => tx.vout[1]?
  | _ => none

variable {E params N} {block : CBlock} {pindexPrev : CBlockIndex}

theorem checkBlockSignature_returns_iff (h : block.isProofOfStake = true) :
    (checkBlockSignature E block).Returns ↔
      (block.vchBlockSig ≠ [] → ∀ txin ∈ block.kernelInput, ∀ txout ∈ block.signedOutput,
        KeyOffsetsFit txin.scriptSig (solver txout.scriptPubKey)) := by
  obtain ⟨cb, tx, rest, txin, vin, out₀, out₁, outs, hvtx, -, hvin, hvout⟩ :=
    CBlock.exists_coinStake h
  have hin : block.kernelInput = some txin := by simp [CBlock.kernelInput, hvtx, hvin]
  have hout : block.signedOutput = some out₁ := by simp [CBlock.signedOutput, hvtx, hvout]
  unfold checkBlockSignature
  rw [if_neg (by simp [CBlock.isProofOfWork, h]), hin, hout]
  by_cases hsig : block.vchBlockSig = []
  · rw [if_pos (by simp [hsig])]
    exact ⟨fun _ hne => absurd hsig hne, fun _ => trivial⟩
  · rw [if_neg (by simpa using hsig)]
    simp only [hvtx, hvin, hvout, Result.returns_bind_iff, signingKey_returns_iff]
    constructor
    · rintro ⟨hfit, -⟩ - _ ⟨⟩ _ ⟨⟩
      exact hfit
    · intro hfit
      refine ⟨hfit hsig txin rfl out₁ rfl, fun key _ => ?_⟩
      cases key <;> trivial

theorem newPivStake_returns_iff {txin : CTxIn} :
    (newPivStake E params N txin).Returns ↔
      ∀ p ∈ findStakeOrigin E params N txin.prevout.hash,
        txin.prevout.n.toNat < p.1.vout.length := by
  unfold newPivStake
  cases hfind : findStakeOrigin E params N txin.prevout.hash with
  | none => exact ⟨fun _ p hp => (by cases hp), fun _ => trivial⟩
  | some p =>
    obtain ⟨txPrev, pindexFrom⟩ := p
    cases hget : txPrev.vout[txin.prevout.n.toNat]? with
    | none =>
      have hle := List.getElem?_eq_none_iff.mp hget
      simp only [hget]
      refine ⟨fun hf => (by cases hf), fun hlt => ?_⟩
      have := hlt _ rfl
      exact absurd this (by simpa using hle)
    | some out =>
      obtain ⟨hlt, -⟩ := List.getElem?_eq_some_iff.mp hget
      simp only [hget]
      exact ⟨fun _ p hp => (by cases hp; exact hlt), fun _ => trivial⟩

theorem checkProofOfStake_returns_iff (h : block.isProofOfStake = true) :
    (checkProofOfStake E params N block pindexPrev).Returns ↔
      (block.hashPrevBlock = pindexPrev.hashBlock → ∀ txin ∈ block.kernelInput,
        ∀ p ∈ findStakeOrigin E params N txin.prevout.hash,
          txin.prevout.n.toNat < p.1.vout.length) := by
  obtain ⟨cb, tx, rest, txin, vin, out₀, out₁, outs, hvtx, -, hvin, hvout⟩ :=
    CBlock.exists_coinStake h
  have hin : block.kernelInput = some txin := by simp [CBlock.kernelInput, hvtx, hvin]
  have htail : ∀ stake, (checkStakeSignature E block stake).Returns := by
    intro stake
    simp only [checkStakeSignature, hvtx, hvin]
    split <;> trivial
  have hload : (loadStakeInput E params N block pindexPrev).Returns ↔
      (block.hashPrevBlock = pindexPrev.hashBlock → ∀ txin ∈ block.kernelInput,
        ∀ p ∈ findStakeOrigin E params N txin.prevout.hash,
          txin.prevout.n.toNat < p.1.vout.length) := by
    unfold loadStakeInput
    rw [hin]
    by_cases hprev : block.hashPrevBlock = pindexPrev.hashBlock
    · simp only [hprev, h, hvtx, hvin, ne_eq, not_true_eq_false, if_false, Bool.not_true,
        Bool.false_eq_true, newPivStake_returns_iff]
      exact ⟨fun hlt _ _ hx => (by cases hx; exact hlt), fun hlt => hlt trivial txin rfl⟩
    · rw [if_pos hprev]
      exact ⟨fun _ heq => absurd heq hprev, fun _ => trivial⟩
  rw [checkProofOfStake, Result.returns_bind_iff, hload]
  refine ⟨fun hr => hr.1, fun hr => ⟨hr, fun stakeInput _ => ?_⟩⟩
  cases stakeInput with
  | none => trivial
  | some stake =>
    dsimp only
    split
    · trivial
    · exact htail stake

/-- **Where the proof-of-stake checks are total.** On a proof-of-stake block both checks
return, instead of reading a script byte or an output that does not exist, exactly if the
lengths found in the script signature of the kernel stay within it and the kernel names an
output that its transaction has. -/
theorem posChecks_return_iff (h : block.isProofOfStake = true) :
    ((checkBlockSignature E block).Returns ∧
      (checkProofOfStake E params N block pindexPrev).Returns) ↔
    ((block.vchBlockSig ≠ [] → ∀ txin ∈ block.kernelInput, ∀ txout ∈ block.signedOutput,
        KeyOffsetsFit txin.scriptSig (solver txout.scriptPubKey)) ∧
      (block.hashPrevBlock = pindexPrev.hashBlock → ∀ txin ∈ block.kernelInput,
        ∀ p ∈ findStakeOrigin E params N txin.prevout.hash,
          txin.prevout.n.toNat < p.1.vout.length)) := by
  rw [checkBlockSignature_returns_iff h, checkProofOfStake_returns_iff h]

/-- A block whose second transaction spends one outpoint with the given script signature,
and pays to a key hash, signed with one byte. -/
def stakeBlock (scriptSig : CScript) : CBlock where
  nVersion := 8
  hashPrevBlock := BaseUint.zero
  hashMerkleRoot := BaseUint.zero
  nTime := 0
  nBits := 0
  nNonce := 0
  hashFinalSaplingRoot := BaseUint.zero
  vtx :=
    [.plain [] [],
      .plain [⟨⟨BaseUint.ofNat 1, 0⟩, scriptSig, 0⟩]
        [⟨0, []⟩, ⟨0, [0x76, 0xa9, 0x14] ++ List.replicate 20 0 ++ [0x88, 0xac]⟩]]
  vchBlockSig := [0]
  fChecked := false

/-- A script signature that pushes one byte and then a key of one byte. -/
theorem posChecks_return_on_short_push :
    (checkBlockSignature sampleEnv (stakeBlock [1, 0, 1, 2])).Returns ∧
      (checkProofOfStake sampleEnv mainParams .fresh (stakeBlock [1, 0, 1, 2])
        (.ofBlock (BaseUint.ofNat 7) (stakeBlock []))).Returns := by
  refine (posChecks_return_iff (by decide)).mpr ⟨?_, ?_⟩
  · rintro - txin htxin txout htxout
    obtain rfl : txin = ⟨⟨BaseUint.ofNat 1, 0⟩, [1, 0, 1, 2], 0⟩ := by
      simpa [CBlock.kernelInput, stakeBlock, CTransaction.plain, eq_comm] using htxin
    obtain rfl := Option.some.inj
      ((show (stakeBlock [1, 0, 1, 2]).signedOutput = _ from rfl).symm.trans htxout)
    exact fun _ => ⟨1, rfl, by decide⟩
  · intro hprev
    exact absurd hprev (by decide)

/-- **A proof-of-stake block can make the checks read outside**: the first byte of the script
signature is a length of 200, and the script has 60 bytes. -/
theorem posChecks_read_outside :
    ¬ ∀ (E : Env) (params : CChainParams) (N : NodeState) (block : CBlock)
        (pindexPrev : CBlockIndex), block.isProofOfStake = true →
      (checkBlockSignature E block).Returns ∧
        (checkProofOfStake E params N block pindexPrev).Returns := by
  intro hall
  obtain ⟨hsig, -⟩ := hall sampleEnv mainParams .fresh (stakeBlock (200 :: List.replicate 59 0))
    (.ofBlock BaseUint.zero (stakeBlock [])) (by decide)
  cases hsig

end Passion
