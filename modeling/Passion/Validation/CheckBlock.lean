import Passion.Staking.ProofOfStake

/-!
# Checks of a transaction

`CheckTransaction` of `consensus/tx_verify.cpp` with the two validators it dispatches to,
`SaplingValidation::CheckTransaction` and `CheckSpecialTx`, and the contextual checks that
need a height: `ContextualCheckTransaction` and `IsFinalTx`.
-/

namespace Passion

/-! ## Checks without context -/

/-- `MAX_TX_SIZE_AFTER_SAPLING`. -/
def MAX_TX_SIZE_AFTER_SAPLING : ℕ := 400000

/-- `MAX_SPECIALTX_EXTRAPAYLOAD`. -/
def MAX_SPECIALTX_EXTRAPAYLOAD : ℕ := 10000

/-- `MIN_COLDSTAKING_AMOUNT`. -/
def MIN_COLDSTAKING_AMOUNT : ℤ := 1 * COIN

/-- `CheckTransactionWithoutProofVerification`, on the Sapling data of the transaction. The
result is the new `nValueOut`. -/
def checkTransactionWithoutProofVerification (consensus : Params) (s : SaplingTxData)
    (nValueOut : ℤ) : Result ℤ :=
  let nValueOut' := if s.valueBalance < 0 then nValueOut + -s.valueBalance else nValueOut
  if s.vShieldedSpend.isEmpty && s.vShieldedOutput.isEmpty && s.valueBalance != 0 then
    dos 100 REJECT_INVALID "bad-txns-valuebalance-nonzero"
  else if s.valueBalance > consensus.nMaxMoneyOut || s.valueBalance < -consensus.nMaxMoneyOut then
    dos 100 REJECT_INVALID "bad-txns-valuebalance-toolarge"
  else if s.valueBalance < 0 && !consensus.moneyRange nValueOut' then
    dos 100 REJECT_INVALID "bad-txns-txouttotal-toolarge"
  else if s.valueBalance > 0 && !consensus.moneyRange s.valueBalance then
    dos 100 REJECT_INVALID "bad-txns-txintotal-toolarge"
  else if !decide (s.vShieldedSpend.map (·.nullifier)).Nodup then
    dos 100 REJECT_INVALID "bad-spend-description-nullifiers-duplicate"
  else .ok nValueOut'

/-- `SaplingValidation::CheckTransaction`. The result is the new `nValueOut`. -/
def saplingCheckTransaction (consensus : Params) (tx : CTransaction) (nValueOut : ℤ)
    (fIsSaplingActive : Bool) : Result ℤ :=
  if !tx.isSaplingVersion && tx.hasSaplingData then
    dos 100 REJECT_INVALID "bad-txns-form-not-sapling"
  else if !tx.hasSaplingData then .ok nValueOut
  else if tx.isCoinStake || tx.isCoinBase then
    dos 100 REJECT_INVALID "bad-txns-invalid-sapling"
  else if !fIsSaplingActive then dos 100 REJECT_INVALID "bad-txns-invalid-sapling-act"
  else match tx.sapData with
    | none => .ok nValueOut
    | some s => checkTransactionWithoutProofVerification consensus s nValueOut

/-- `CheckSpecialTx`. No special type is known. -/
def checkSpecialTx (tx : CTransaction) (fIsSaplingActive : Bool) : Result Unit :=
  if !fIsSaplingActive then
    if tx.hasExtraPayload then .error (.error "CheckSpecialTx") else .ok ()
  else if !tx.isSaplingVersion && !tx.isNormalType then
    dos 100 REJECT_INVALID "bad-txns-type-version"
  else if tx.isNormalType then
    if tx.hasExtraPayload then dos 100 REJECT_INVALID "bad-txns-type-payload" else .ok ()
  else if !tx.hasExtraPayload then dos 100 REJECT_INVALID "bad-txns-payload-empty"
  else if (tx.extraPayload.getD []).length > MAX_SPECIALTX_EXTRAPAYLOAD then
    dos 100 REJECT_INVALID "bad-txns-payload-oversize"
  else dos 10 REJECT_INVALID "bad-tx-type"

/-- The loop of `CheckTransaction` over the outputs. `fMint` says that the transaction is a
coinbase or a coinstake. -/
def checkTxOutputs (consensus : Params) (fMint fColdStakingActive : Bool) :
    ℤ → List CTxOut → Result Unit
  | _, [] => .ok ()
  | nValueOut, txout :: rest =>
    let nValueOut' := nValueOut + txout.nValue
    if txout.isEmpty && !fMint then dos 100 REJECT_INVALID "bad-txns-vout-empty"
    else if txout.nValue < 0 then dos 100 REJECT_INVALID "bad-txns-vout-negative"
    else if txout.nValue > consensus.nMaxMoneyOut then
      dos 100 REJECT_INVALID "bad-txns-vout-toolarge"
    else if !consensus.moneyRange nValueOut' then
      dos 100 REJECT_INVALID "bad-txns-txouttotal-toolarge"
    else if CScript.isPayToColdStaking txout.scriptPubKey && !fColdStakingActive then
      dos 10 REJECT_INVALID "cold-stake-inactive"
    else if CScript.isPayToColdStaking txout.scriptPubKey &&
        decide (txout.nValue < MIN_COLDSTAKING_AMOUNT) then
      dos 100 REJECT_INVALID "cold-stake-vout-toosmall"
    else checkTxOutputs consensus fMint fColdStakingActive nValueOut' rest

/-- The length of the `scriptSig` of the first input. -/
def CTransaction.scriptSigSize (tx : CTransaction) : ℕ :=
  match tx.vin with
  | [] => 0
  | i :: _ => i.scriptSig.length

/-- `CheckTransaction`. The rules on empty `vin` and `vout` ask for Sapling data first. -/
def checkTransaction (consensus : Params) (tx : CTransaction)
    (fColdStakingActive fSaplingActive : Bool) : Result Unit :=
  if tx.vin.isEmpty && (tx.sapData.any fun s => s.vShieldedSpend.isEmpty) then
    dos 10 REJECT_INVALID "bad-txns-vin-empty"
  else if tx.vout.isEmpty && (tx.sapData.any fun s => s.vShieldedOutput.isEmpty) then
    dos 10 REJECT_INVALID "bad-txns-vout-empty"
  else if fSaplingActive && (tx.nVersion < 1 || tx.nVersion ≥ 4) then
    dos 10 REJECT_INVALID "bad-tx-version-too-high"
  else if tx.getTotalSize > MAX_TX_SIZE_AFTER_SAPLING then
    dos 10 REJECT_INVALID "bad-txns-oversize"
  else
    (saplingCheckTransaction consensus tx 0 fSaplingActive).bind fun nValueOut =>
    (checkSpecialTx tx fSaplingActive).bind fun _ =>
    (checkTxOutputs consensus (tx.isCoinBase || tx.isCoinStake) fColdStakingActive nValueOut
      tx.vout).bind fun _ =>
    if !decide (tx.vin.map (·.prevout)).Nodup then
      dos 100 REJECT_INVALID "bad-txns-inputs-duplicate"
    else if tx.isCoinBase && (tx.scriptSigSize < 2 || tx.scriptSigSize > 150) then
      dos 100 REJECT_INVALID "bad-cb-length"
    else .ok ()

/-- `GetLegacySigOpCount`. -/
def getLegacySigOpCount (tx : CTransaction) : ℕ :=
  (tx.vin.map fun txin => CScript.getSigOpCount txin.scriptSig false).sum +
    (tx.vout.map fun txout => CScript.getSigOpCount txout.scriptPubKey false).sum

/-! ## Checks at a height -/

/-- `IsFinalTx`. `nAdjustedTime` is `GetAdjustedTime()`, read where the block time is zero. -/
def isFinalTx (tx : CTransaction) (nBlockHeight nBlockTime nAdjustedTime : ℤ) : Bool :=
  let nLockTime : ℤ := tx.nLockTime.toNat
  let nBlockTime := if nBlockTime = 0 then nAdjustedTime else nBlockTime
  let bound := if nLockTime < LOCKTIME_THRESHOLD then nBlockHeight else nBlockTime
  nLockTime == 0 || decide (nLockTime < bound) || tx.vin.all (·.isFinal)

/-- `SaplingValidation::ContextualCheckTransaction`, as `ContextualCheckBlock` calls it
(`isMined`). -/
def contextualCheckTransaction (E : Env) (params : CChainParams) (tx : CTransaction)
    (nHeight : ℤ) : Result Unit :=
  if !params.consensus.networkUpgradeActive nHeight .upgradeV5_0 then .ok ()
  else if !tx.isSaplingVersion && tx.hasSaplingData then
    dos 100 REJECT_INVALID "bad-tx-sapling-version-too-low"
  else if (tx.isCoinBase || tx.isCoinStake) && tx.hasSaplingData then
    dos 100 REJECT_INVALID "bad-cs-has-shielded-data"
  else if !tx.hasSaplingData then .ok ()
  else match tx.sapData with
    | none => .ok ()
    | some s =>
      let dataToBeSigned := E.saplingSignatureHash tx
      if !s.vShieldedSpend.all fun spend => E.saplingCheckSpend spend dataToBeSigned then
        dos 100 REJECT_INVALID "bad-txns-sapling-spend-description-invalid"
      else if !s.vShieldedOutput.all E.saplingCheckOutput then
        dos 100 REJECT_INVALID "bad-txns-sapling-output-description-invalid"
      else if !E.saplingFinalCheck s dataToBeSigned then
        dos 100 REJECT_INVALID "bad-txns-sapling-binding-signature-invalid"
      else .ok ()

/-! ## Checks of a block

`CheckBlock` of `validation.cpp`, which looks at the block and a little of the node, and the
checks against the parent: `CheckWork`, `CheckBlockTime`, `ContextualCheckBlockHeader` and
`ContextualCheckBlock`.
-/

open Except

/-- `MAX_BLOCK_SIZE_CURRENT`. -/
def MAX_BLOCK_SIZE_CURRENT : ℕ := 2000000

/-- `MAX_BLOCK_SHIELDED_TXES_SIZE`. -/
def MAX_BLOCK_SHIELDED_TXES_SIZE : ℕ := 750000

/-- `MAX_BLOCK_SIGOPS_CURRENT`. -/
def MAX_BLOCK_SIGOPS_CURRENT : ℕ := MAX_BLOCK_SIZE_CURRENT / 50

/-- `MAX_BLOCK_SIGOPS_LEGACY`. -/
def MAX_BLOCK_SIGOPS_LEGACY : ℕ := 1000000 / 50

/-- `GetTotalShieldedTxSize`. -/
def getTotalShieldedTxSize (block : CBlock) : ℕ :=
  ((block.vtx.filter (·.isShieldedTx)).map (·.getTotalSize)).sum

variable (E : Env) (params : CChainParams) (N : NodeState)

/-! ## Without the parent -/

/-- The branch of `CheckColdStakeFreeOutput` for a node that is not synced: what the staker
keeps has to be what was staked and the reward. -/
def checkColdStakeValue (tx : CTransaction) (nHeight : ℤ) : Result Bool :=
  match tx.vin with
  | [] => .error (.outOfBounds "tx.vin[0]")
  | txin :: _ =>
    match N.getTransaction params E.toHashing txin.prevout.hash with
    | none => .ok false
    | some (txPrev, _) =>
      match txPrev.vout[txin.prevout.n.toNat]? with
      | none => .error (.outOfBounds "txPrev->vout[tx.vin[0].prevout.n]")
      | some out =>
        let amtIn := out.nValue + getBlockValue params nHeight
        let amtOut := ((tx.vout.drop 1).dropLast.map (·.nValue)).sum
        .ok (amtOut == amtIn)

/-- `CheckColdStakeFreeOutput`. -/
def checkColdStakeFreeOutput (tx : CTransaction) (nHeight : ℤ) : Result Bool :=
  if !tx.hasP2CSOutputs then .ok true
  else match tx.vout.reverse with
    | lastOut :: out :: _ :: _ =>
      if lastOut.scriptPubKey = out.scriptPubKey then .ok true
      else if params.isRegTestNet then .ok false
      else if !N.fBlockchainSynced then checkColdStakeValue E params N tx nHeight
      else .ok false
    | _ => .ok true

/-- The part of `CheckBlock` on the proof of work and the Merkle root. -/
def checkBlockHash (block : CBlock) (fCheckPOW fCheckMerkleRoot : Bool) : Result Unit :=
  if !block.isProofOfStake && fCheckPOW &&
      !checkProofOfWork params (block.getHash E.toHashing) block.nBits then
    dos 50 REJECT_INVALID "high-hash"
  else if fCheckMerkleRoot && block.hashMerkleRoot != (blockMerkleRoot E.toHashing block).1 then
    dosCorruption 100 REJECT_INVALID "bad-txnmrklroot"
  else if fCheckMerkleRoot && (blockMerkleRoot E.toHashing block).2 then
    dosCorruption 100 REJECT_INVALID "bad-txns-duplicate"
  else .ok ()

/-- The part of `CheckBlock` on a proof-of-stake block. -/
def checkCoinStake (block : CBlock) : Result Unit :=
  match block.vtx with
  | cb :: cs :: rest =>
    if !(cb.vout.length == 1 && cb.vout.all (·.isEmpty)) then
      dos 100 REJECT_INVALID "bad-cb-pos"
    else if !cs.isCoinStake then dos 100 REJECT_INVALID "bad-cs-missing"
    else if rest.any (·.isCoinStake) then dos 100 REJECT_INVALID "bad-cs-multiple"
    else .ok ()
  | _ => .error (.outOfBounds "block.vtx[1]")

/-- The part of `CheckBlock` on the sizes, the coinbase and the coinstake. -/
def checkBlockForm (block : CBlock) : Result Unit :=
  let nBlockSize := block.serialize.length
  match block.vtx with
  | [] => dos 100 REJECT_INVALID "bad-blk-length"
  | cb :: rest =>
    if block.vtx.length > MAX_BLOCK_SIZE_CURRENT || nBlockSize > MAX_BLOCK_SIZE_CURRENT then
      dos 100 REJECT_INVALID "bad-blk-length"
    else if nBlockSize > MAX_BLOCK_SHIELDED_TXES_SIZE &&
        getTotalShieldedTxSize block > MAX_BLOCK_SHIELDED_TXES_SIZE then
      dos 100 REJECT_INVALID "bad-blk-shielded-size"
    else if !cb.isCoinBase then dos 100 REJECT_INVALID "bad-cb-missing"
    else if rest.any (·.isCoinBase) then dos 100 REJECT_INVALID "bad-cb-multiple"
    else if block.isProofOfStake then checkCoinStake block
    else .ok ()

/-- The height `CheckBlock` takes a block to have: zero where the parent is not known. -/
def blockHeightInCheck (block : CBlock) : ℤ :=
  match N.chainTip with
  | none => 0
  | some pindexPrev =>
    if pindexPrev.hashBlock = block.hashPrevBlock then pindexPrev.nHeight + 1
    else ((N.mapBlockIndex.lookup block.hashPrevBlock).map (·.nHeight + 1)).getD 0

/-- The part of `CheckBlock` on cold staking: whether such outputs are allowed. -/
def checkColdStaking (block : CBlock) : Result Bool :=
  let nHeight := blockHeightInCheck N block
  if N.chainTip.isNone || nHeight = 0 || N.fInitialBlockDownload then .ok true
  else match block.isProofOfStake, block.vtx with
    | true, _ :: cs :: _ =>
      (checkColdStakeFreeOutput E params N cs nHeight).bind fun fine =>
        if fine then .ok (!N.fColdStakingMaintenance)
        else dos 0 REJECT_INVALID "bad-p2cs-outs"
    | _, _ => .ok (!N.fColdStakingMaintenance)

/-- `state.Invalid` after a failed `CheckTransaction`: the verdict again, or an empty one. -/
def reportInvalid : Failure → Failure
  | .invalid v => .invalid { v with corruptionPossible := false }
  | .error _ => .invalid ⟨0, 0, "", false⟩
  | e => e

/-- The loop of `CheckBlock` over the transactions. Whether Sapling is active is asked for
the height after the tip of the node. -/
def checkBlockTransactions (fColdStakingActive : Bool) (block : CBlock) : Result Unit :=
  let fSaplingActive :=
    params.consensus.networkUpgradeActive (N.chainHeight + 1) .upgradeV5_0
  (block.vtx.forM fun tx =>
    checkTransaction params.consensus tx fColdStakingActive fSaplingActive).mapError reportInvalid

/-- `CheckBlock`: the block, with `fChecked` set after a full check. -/
def checkBlock (block : CBlock) (fCheckPOW fCheckMerkleRoot fCheckSig : Bool) : Result CBlock :=
  if block.fChecked then .ok block
  else
    (checkBlockHash E params block fCheckPOW fCheckMerkleRoot).bind fun _ =>
    (checkBlockForm block).bind fun _ =>
    (checkColdStaking E params N block).bind fun fColdStakingActive =>
    (checkBlockTransactions params N fColdStakingActive block).bind fun _ =>
    if (block.vtx.map getLegacySigOpCount).sum > MAX_BLOCK_SIGOPS_LEGACY then
      dosCorruption 100 REJECT_INVALID "bad-blk-sigops"
    else
      (if fCheckSig then checkBlockSignature E block else .ok true).bind fun fine =>
      if !fine then dosCorruption 100 REJECT_INVALID "bad-PoS-sig"
      else .ok (if fCheckPOW && fCheckMerkleRoot && fCheckSig then block.setChecked else block)

/-! ## Against the parent -/

/-- `CheckWork`. Proof-of-work blocks up to a height may miss the required bits by half. -/
def checkWork (block : CBlock) (pindexPrev : Option CBlockIndex) : Result Bool :=
  match pindexPrev with
  | none => .ok false
  | some pindexPrev =>
    (getNextWorkRequired params N.mapBlockIndex pindexPrev).bind fun nBitsRequired =>
      if !params.isRegTestNet && block.isProofOfWork && decide (pindexPrev.nHeight + 1 ≤ 68589) then
        .ok (!E.bitsFarApart block.nBits nBitsRequired)
      else if block.nBits ≠ nBitsRequired then
        .ok (block.nTime == N.nPassionBadBlockTime && block.nBits == N.nPassionBadBlockBits)
      else .ok true

/-- `GetMedianTimePast`. -/
def getMedianTimePast (pindex : CBlockIndex) : ℤ :=
  let times := ((pindex.walkBack N.mapBlockIndex 10).map (·.getBlockTime)).insertionSort (· ≤ ·)
  times.getD (times.length / 2) 0

/-- `MinPastBlockTime`. -/
def minPastBlockTime (pindex : CBlockIndex) : ℤ :=
  if !params.consensus.isTimeProtocolV2 (pindex.nHeight + 1) then getMedianTimePast N pindex
  else pindex.getBlockTime

/-- `MaxFutureBlockTime`. -/
def maxFutureBlockTime (pindex : CBlockIndex) : ℤ :=
  N.nAdjustedTime + params.consensus.futureBlockTimeDrift (pindex.nHeight + 1)

/-- `CheckBlockTime`. -/
def checkBlockTime (block : CBlock) (pindexPrev : CBlockIndex) : Result Unit :=
  if params.isRegTestNet then .ok ()
  else if block.getBlockTime > maxFutureBlockTime params N pindexPrev then
    dos 0 REJECT_INVALID "time-too-new"
  else if block.getBlockTime ≤ minPastBlockTime params N pindexPrev then
    dos 50 REJECT_INVALID "time-too-old"
  else if !params.consensus.isValidBlockTimeStamp block.getBlockTime (pindexPrev.nHeight + 1) then
    dos 100 REJECT_INVALID "invalid-time-mask"
  else .ok ()

/-- `ContextualCheckBlockHeader`. -/
def contextualCheckBlockHeader (block : CBlock) (pindexPrev : Option CBlockIndex) : Result Unit :=
  let hash := block.getHash E.toHashing
  if hash = params.consensus.hashGenesisBlock then .ok ()
  else match pindexPrev with
    | none => .error (.assertion "pindexPrev")
    | some pindexPrev =>
      let nHeight := pindexPrev.nHeight + 1
      if N.chainHeight - nHeight ≥ N.nMaxReorgDepth then dos 1 0 ""
      else (checkBlockTime params N block pindexPrev).bind fun _ =>
        if !N.checkpointsCheckBlock params nHeight hash false then
          dos 100 REJECT_CHECKPOINT "checkpoint mismatch"
        else if (N.getLastCheckpoint params).any fun p => decide (nHeight < p.nHeight) then
          dos 0 0 ""
        else if (block.nVersion < 3 && decide (nHeight ≥ 1)) || (block.nVersion < 8 &&
            params.consensus.networkUpgradeActive nHeight .upgradeV5_0) then
          dos 0 REJECT_OBSOLETE "bad-version"
        else .ok ()

/-- The body of the loop of `ContextualCheckBlock`. -/
def contextualCheckBlockTx (block : CBlock) (nHeight : ℤ) (tx : CTransaction) : Result Unit :=
  (contextualCheckTransaction E params tx nHeight).bind fun _ =>
    if !isFinalTx tx nHeight block.getBlockTime N.nAdjustedTime then
      dos 10 REJECT_INVALID "bad-txns-nonfinal"
    else .ok ()

/-- The rule that the coinbase starts with the height. -/
def checkCoinbaseHeight (block : CBlock) (nHeight : ℤ) : Result Unit :=
  match block.vtx with
  | [] => .error (.outOfBounds "block.vtx[0]")
  | cb :: _ =>
    match cb.vin with
    | [] => .error (.outOfBounds "block.vtx[0]->vin[0]")
    | txin :: _ =>
      if (CScript.pushInt64 nHeight).isPrefixOf txin.scriptSig then .ok ()
      else dos 100 REJECT_INVALID "bad-cb-height"

/-- `ContextualCheckBlock`. -/
def contextualCheckBlock (block : CBlock) (pindexPrev : Option CBlockIndex) : Result Unit :=
  let nHeight := (pindexPrev.map (·.nHeight + 1)).getD 0
  (block.vtx.forM (contextualCheckBlockTx E params N block nHeight)).bind fun _ =>
    if pindexPrev.isSome then checkCoinbaseHeight block nHeight else .ok ()

/-! ## What a checked block has -/

/-- **What `CheckBlock` establishes** about the transactions of a block. -/
structure CBlock.Checked (consensus : Params) (block : CBlock) : Prop where
  size : block.serialize.length ≤ MAX_BLOCK_SIZE_CURRENT
  coinbase : ∃ cb rest, block.vtx = cb :: rest ∧ cb.isCoinBase = true ∧
    ∀ tx ∈ rest, tx.isCoinBase = false
  coinstake : block.isProofOfStake = true → ∃ cb cs rest, block.vtx = cb :: cs :: rest ∧
    (∃ out, cb.vout = [out] ∧ out.isEmpty = true) ∧ cs.isCoinStake = true ∧
    ∀ tx ∈ rest, tx.isCoinStake = false
  transactions : ∀ tx ∈ block.vtx, ∃ fColdStakingActive fSaplingActive,
    checkTransaction consensus tx fColdStakingActive fSaplingActive = .ok ()

/-- The flag `fChecked` is set by a full check only. -/
def CBlock.FlagEarned (block : CBlock) : Prop :=
  block.fChecked = true → ∃ (N : NodeState) (b : CBlock),
    checkBlock E params N { block with fChecked := false } true true true = .ok b

variable {E params N} {block b : CBlock} {fCheckPOW fCheckMerkleRoot fCheckSig : Bool}

theorem checkCoinStake_eq_ok (h : checkCoinStake block = .ok ()) :
    ∃ cb cs rest, block.vtx = cb :: cs :: rest ∧ (∃ out, cb.vout = [out] ∧ out.isEmpty = true) ∧
      cs.isCoinStake = true ∧ ∀ tx ∈ rest, tx.isCoinStake = false := by
  unfold checkCoinStake at h
  split at h
  · rename_i cb cs rest hvtx
    obtain ⟨h1, h⟩ := guard_eq_ok.mp h
    obtain ⟨h2, h⟩ := guard_eq_ok.mp h
    obtain ⟨h3, -⟩ := guard_eq_ok.mp h
    refine ⟨cb, cs, rest, hvtx, ?_, by simpa using h2, by simpa using h3⟩
    have hvout : cb.vout.length = 1 ∧ ∀ out ∈ cb.vout, out.isEmpty = true := by simpa using h1
    obtain ⟨out, hout⟩ := List.length_eq_one_iff.mp hvout.1
    exact ⟨out, hout, hvout.2 out (by simp [hout])⟩
  · cases h

theorem checkBlockForm_eq_ok (h : checkBlockForm block = .ok ()) :
    block.serialize.length ≤ MAX_BLOCK_SIZE_CURRENT ∧
      (∃ cb rest, block.vtx = cb :: rest ∧ cb.isCoinBase = true ∧
        ∀ tx ∈ rest, tx.isCoinBase = false) ∧
      (block.isProofOfStake = true → checkCoinStake block = .ok ()) := by
  unfold checkBlockForm at h
  split at h
  · cases h
  · rename_i cb rest hvtx
    obtain ⟨h1, h⟩ := guard_eq_ok.mp h
    obtain ⟨-, h⟩ := guard_eq_ok.mp h
    obtain ⟨h3, h⟩ := guard_eq_ok.mp h
    obtain ⟨h4, h⟩ := guard_eq_ok.mp h
    have hsize : block.vtx.length ≤ MAX_BLOCK_SIZE_CURRENT ∧
        block.serialize.length ≤ MAX_BLOCK_SIZE_CURRENT := by simpa using h1
    refine ⟨hsize.2, ⟨cb, rest, hvtx, by simpa using h3, by simpa using h4⟩, fun hpos => ?_⟩
    rwa [if_pos hpos] at h

/-- **A block that passes `CheckBlock` is checked**, if its flag does not say that it has
been already. -/
theorem checked_of_checkBlock (hflag : block.fChecked = false)
    (h : checkBlock E params N block fCheckPOW fCheckMerkleRoot fCheckSig = .ok b) :
    block.Checked params.consensus := by
  rw [checkBlock, if_neg (by simp [hflag])] at h
  obtain ⟨_, -, h⟩ := bind_eq_ok.mp h
  obtain ⟨_, hform, h⟩ := bind_eq_ok.mp h
  obtain ⟨cold, -, h⟩ := bind_eq_ok.mp h
  obtain ⟨_, htxs, -⟩ := bind_eq_ok.mp h
  obtain ⟨hsize, hcb, hcs⟩ := checkBlockForm_eq_ok hform
  refine ⟨hsize, hcb, fun hpos => checkCoinStake_eq_ok (hcs hpos), fun tx htx => ?_⟩
  exact ⟨cold, _, forM_eq_ok.mp (mapError_eq_ok.mp htxs) tx htx⟩

/-- The same for a block whose flag, if set, was earned. -/
theorem CBlock.FlagEarned.checked (hflag : block.FlagEarned E params)
    (h : checkBlock E params N block fCheckPOW fCheckMerkleRoot fCheckSig = .ok b) :
    block.Checked params.consensus := by
  cases hf : block.fChecked with
  | false => exact checked_of_checkBlock hf h
  | true =>
    obtain ⟨M, b', h'⟩ := hflag hf
    obtain ⟨hsize, hcb, hcs, htxs⟩ := checked_of_checkBlock rfl h'
    exact ⟨hsize, hcb, hcs, htxs⟩

end Passion
