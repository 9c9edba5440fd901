import Passion.Coins.Undo
import Passion.Validation.CheckBlock

/-!
# Connecting a block

`CheckTxInputs`, `CheckInputs` and `ConnectBlock` of `validation.cpp`, over the operations of a
coins view. What `ConnectBlock` does besides to the view is in its result: the index entry and the
undo file. The script checks are collected, and all of them have to pass at the end. Left out: disk
failures, the transaction index that is written, and timing.
-/

namespace Passion

open Stateful CoinsView

variable {σ : Type} [CoinsView σ]

/-- `state.DoS(level, ..., code, reason)` over a view. -/
def reject {α : Type} (level code : ℕ) (reason : String) : Stateful Failure σ α :=
  fail (.invalid ⟨level, code, reason, false⟩)

/-! ## The inputs of a transaction -/

/-- `GetSpendHeight`. -/
def getSpendHeight (N : NodeState) : Stateful Failure σ ℤ :=
  getBestBlock >>= fun hash =>
    match N.mapBlockIndex.lookup hash with
    | none => fail (.outOfBounds "mapBlockIndex.find(inputs.GetBestBlock())->second")
    | some pindexPrev => pure (pindexPrev.nHeight + 1)

/-- What `CheckTxInputs` asks of the coin of an input: the new `nValueIn`. -/
def checkInputCoin (consensus : Params) (nSpendHeight nValueIn : ℤ) (coin : Coin) : Result ℤ :=
  if coin.isSpent then .error (.assertion "!coin.IsSpent()")
  else if (coin.fCoinBase || coin.fCoinStake) &&
      decide (nSpendHeight - coin.nHeight < consensus.nCoinbaseMaturity) then
    dos 0 REJECT_INVALID "bad-txns-premature-spend-of-coinbase-coinstake"
  else if !consensus.moneyRange coin.out.nValue ||
      !consensus.moneyRange (nValueIn + coin.out.nValue) then
    dos 100 REJECT_INVALID "bad-txns-inputvalues-outofrange"
  else .ok (nValueIn + coin.out.nValue)

/-- The end of `CheckTxInputs`: a coinstake may pay out more than it takes in. -/
def checkTxValues (consensus : Params) (tx : CTransaction) (nValueIn : ℤ) : Result Unit :=
  tx.getShieldedValueIn.bind fun shielded =>
    if tx.isCoinStake then .ok ()
    else tx.getValueOut.bind fun nValueOut =>
      let nTxFee := nValueIn + shielded - nValueOut
      if nValueIn + shielded < nValueOut then dos 100 REJECT_INVALID "bad-txns-in-belowout"
      else if nTxFee < 0 then dos 100 REJECT_INVALID "bad-txns-fee-negative"
      else if !consensus.moneyRange nTxFee then dos 100 REJECT_INVALID "bad-txns-fee-outofrange"
      else .ok ()

/-- The loop of `CheckTxInputs` over the inputs. -/
def checkInputCoins (consensus : Params) (nSpendHeight : ℤ) (tx : CTransaction) :
    Stateful Failure σ ℤ :=
  fold (fun nValueIn txin => accessCoin txin.prevout >>= fun coin =>
    ofResult (checkInputCoin consensus nSpendHeight nValueIn coin)) 0 tx.vin

/-- `Consensus::CheckTxInputs`. -/
def checkTxInputs (E : Env) (consensus : Params) (tx : CTransaction) (nSpendHeight : ℤ) :
    Stateful Failure σ Unit :=
  haveInputs tx >>= fun fHave =>
  if !fHave then reject 0 0 ""
  else haveShieldedRequirements E tx >>= fun fMet =>
  if !fMet then reject 0 0 ""
  else checkInputCoins consensus nSpendHeight tx >>= fun nValueIn =>
  ofResult (checkTxValues consensus tx nValueIn)

/-- `CScriptCheck`. -/
structure CScriptCheck where
  scriptPubKey : CScript
  amount : ℤ
  tx : CTransaction
  nIn : ℕ
  nFlags : ℕ

/-- `CScriptCheck::operator()`: nothing, or the text of the script error. -/
def CScriptCheck.check (E : Env) (c : CScriptCheck) : Option String :=
  E.verifyScript ((c.tx.vin[c.nIn]?.map (·.scriptSig)).getD []) c.scriptPubKey c.nFlags c.tx c.nIn
    c.amount

/-- `STANDARD_NOT_MANDATORY_VERIFY_FLAGS`. -/
def STANDARD_NOT_MANDATORY_VERIFY_FLAGS : ℕ := 0xde

/-- A script check made at once, in `CheckInputs`. -/
def checkScriptNow (E : Env) (c : CScriptCheck) : Result Unit :=
  match c.check E with
  | none => .ok ()
  | some serror =>
    if c.nFlags &&& STANDARD_NOT_MANDATORY_VERIFY_FLAGS ≠ 0 ∧
        ({ c with nFlags := c.nFlags - (c.nFlags &&& STANDARD_NOT_MANDATORY_VERIFY_FLAGS) } :
          CScriptCheck).check E = none then
      dos 0 REJECT_NONSTANDARD ("non-mandatory-script-verify-flag (" ++ serror ++ ")")
    else dos 100 REJECT_INVALID ("mandatory-script-verify-flag-failed (" ++ serror ++ ")")

/-- The script check of one input in `CheckInputs`: made at once, or handed on. -/
def checkInputScript (E : Env) (flags : ℕ) (fQueue : Bool) (tx : CTransaction)
    (input : CTxIn × ℕ) : Stateful Failure σ (List CScriptCheck) :=
  accessCoin input.1.prevout >>= fun coin =>
    let check : CScriptCheck := ⟨coin.out.scriptPubKey, coin.out.nValue, tx, input.2, flags⟩
    if coin.isSpent then fail (.assertion "!coin.IsSpent()")
    else if fQueue then pure [check]
    else ofResult (checkScriptNow E check) >>= fun _ => pure []

/-- The script checks of `CheckInputs`. -/
def checkInputScripts (E : Env) (fScriptChecks : Bool) (flags : ℕ) (fQueue : Bool)
    (tx : CTransaction) : Stateful Failure σ (List CScriptCheck) :=
  if fScriptChecks then
    collect (checkInputScript E flags fQueue tx) tx.vin.zipIdx >>= fun checks =>
      pure checks.flatten
  else pure []

/-- `CheckInputs`: the checks that are handed on. -/
def checkInputs (E : Env) (params : CChainParams) (N : NodeState) (tx : CTransaction)
    (fScriptChecks : Bool) (flags : ℕ) (fQueue : Bool) : Stateful Failure σ (List CScriptCheck) :=
  if tx.isCoinBase then pure []
  else getSpendHeight N >>= fun nSpendHeight =>
    checkTxInputs E params.consensus tx nSpendHeight >>= fun _ =>
    checkInputScripts E fScriptChecks flags fQueue tx

/-! ## The loop over the transactions -/

/-- What the loop of `ConnectBlock` carries. -/
structure ConnectTotals where
  nFees : ℤ
  nSigOps : ℕ
  nValueIn : ℤ
  nValueOut : ℤ
  vtxundo : List (List Coin)
  saplingTree : SaplingMerkleTree
  checks : List CScriptCheck

/-- The totals before the first transaction. -/
def ConnectTotals.zero (tree : SaplingMerkleTree) : ConnectTotals := ⟨0, 0, 0, 0, [], tree, []⟩

/-- The flags `ConnectBlock` verifies scripts with: P2SH, DER signatures and
`CHECKLOCKTIMEVERIFY`. -/
def connectFlags : ℕ := 1 + 4 + 512

variable (E : Env) (params : CChainParams) (N : NodeState) (block : CBlock)
variable (pindex : CBlockIndex)

/-- `fScriptChecks` of `ConnectBlock`. -/
def scriptChecksActive : Bool := decide (pindex.nHeight ≥ N.getTotalBlocksEstimate params)

/-- The checks on a transaction before its inputs are looked at: the new `nSigOps`. -/
def connectTxForm (nSigOps : ℕ) (tx : CTransaction) : Result ℕ :=
  if nSigOps + getLegacySigOpCount tx > MAX_BLOCK_SIGOPS_CURRENT then
    dos 100 REJECT_INVALID "bad-blk-sigops"
  else if !N.fInitialBlockDownload && decide ((block.nTime.toNat : ℤ) > N.nSaplingMaintenance) &&
      tx.isShieldedTx then dos 100 0 ""
  else .ok (nSigOps + getLegacySigOpCount tx)

/-- The availability of the inputs: the new `nSigOps`. -/
def connectTxInputs (nSigOps : ℕ) (tx : CTransaction) : Stateful Failure σ ℕ :=
  if tx.isCoinBase then pure nSigOps
  else haveInputs tx >>= fun fHave =>
    if !fHave then reject 100 REJECT_INVALID "bad-txns-inputs-missingorspent"
    else haveShieldedRequirements E tx >>= fun fMet =>
    if !fMet then reject 100 REJECT_INVALID "bad-txns-sapling-requirements-not-met"
    else getP2SHSigOpCount tx >>= fun nP2SH =>
    if nSigOps + nP2SH > MAX_BLOCK_SIGOPS_CURRENT then
      reject 100 REJECT_INVALID "bad-blk-sigops"
    else pure (nSigOps + nP2SH)

/-- The fee a transaction adds to `nFees`. A coinstake adds none. -/
def txFee (tx : CTransaction) : Stateful Failure σ ℤ :=
  if tx.isCoinStake then pure 0
  else getValueIn tx >>= fun nValueIn =>
    ofResult tx.getValueOut >>= fun nValueOut => pure (nValueIn - nValueOut)

/-- The values and scripts of a transaction: its fee, the value of its inputs and the script
checks handed on. A coinbase has none. -/
def connectTxValues (tx : CTransaction) : Stateful Failure σ (ℤ × ℤ × List CScriptCheck) :=
  if tx.isCoinBase then pure (0, 0, [])
  else txFee tx >>= fun nFee =>
    getValueIn tx >>= fun nValueIn =>
    checkInputs E params N tx (scriptChecksActive params N pindex) connectFlags
      (decide (N.nScriptCheckThreads ≠ 0)) >>= fun checks =>
    pure (nFee, nValueIn, checks)

/-- The note commitments a transaction adds to the Sapling tree. -/
def appendNotes (tree : SaplingMerkleTree) (tx : CTransaction) : Result SaplingMerkleTree :=
  if tx.isShieldedTx then tree.appendAll E (tx.shieldedOutputs.map (·.cmu)) else .ok tree

/-- The body of the loop of `ConnectBlock`. No undo record is kept for the first
transaction. -/
def connectTx (t : ConnectTotals) (tx : CTransaction × ℕ) : Stateful Failure σ ConnectTotals :=
  ofResult (connectTxForm N block t.nSigOps tx.1) >>= fun nSigOps =>
  connectTxInputs E nSigOps tx.1 >>= fun nSigOps =>
  connectTxValues E params N pindex tx.1 >>= fun values =>
  ofResult tx.1.getValueOut >>= fun nValueOut =>
  updateCoins E.toHashing tx.1 pindex.nHeight >>= fun vprevout =>
  ofResult (appendNotes E t.saplingTree tx.1) >>= fun tree =>
  pure {
    nFees := t.nFees + values.1
    nSigOps := nSigOps
    nValueIn := t.nValueIn + values.2.1
    nValueOut := t.nValueOut + nValueOut
    vtxundo := if tx.2 > 0 then t.vtxundo ++ [vprevout] else t.vtxundo
    saplingTree := tree
    checks := t.checks ++ values.2.2 }

/-- The loop of `ConnectBlock`, from the tree of the best anchor on. -/
def connectTxs : Stateful Failure σ ConnectTotals :=
  getBestAnchor E >>= fun rt =>
  getSaplingAnchorAt E rt >>= fun tree =>
  match tree with
  | none => fail (.assertion "view.GetSaplingAnchorAt(view.GetBestAnchor(), sapling_tree)")
  | some tree => fold (connectTx E params N block pindex) (.zero tree) block.vtx.zipIdx

/-! ## `ConnectBlock` -/

/-- What `ConnectBlock` leaves besides the view. `nMint` and `nExpectedMint` are local to
it; it does not compare them. -/
structure ConnectResult where
  nFees : ℤ
  nMint : ℤ
  nExpectedMint : ℤ
  /-- The undo file, if one is written. -/
  undo : Option Bytes
  pindex : CBlockIndex

/-- The block is checked again; a block that may be corrupted stops the node. -/
def checkBlockAgain (fJustCheck : Bool) : Result CBlock :=
  (checkBlock E params N block (!fJustCheck) (!fJustCheck) (!fJustCheck)).mapError fun
    | .invalid v =>
      if v.corruptionPossible then
        .systemError "Corrupt block found indicating potential hardware failure; shutting down"
      else .invalid v
    | e => e

/-- The checks on the kind of the block and the shielded pool. -/
def checkConnectHeader : Result Unit :=
  let isPoSActive := params.consensus.networkUpgradeActive pindex.nHeight .upgradePos
  if !isPoSActive && block.isProofOfStake then dos 100 REJECT_INVALID "PoS-early"
  else if isPoSActive && block.isProofOfWork then dos 100 REJECT_INVALID "PoW-ended"
  else if pindex.nChainSaplingValue.any fun n => decide (n < 0) then
    dos 100 REJECT_INVALID "turnstile-violation-sapling-shielded-pool"
  else .ok ()

/-- The checks after the loop: the root of the Sapling tree and the queued script checks. -/
def checkConnected (t : ConnectTotals) : Result Unit :=
  if params.consensus.networkUpgradeActive pindex.nHeight .upgradeV5_0 &&
      block.hashFinalSaplingRoot != t.saplingTree.root E then
    dos 100 REJECT_INVALID "bad-sapling-root-in-block"
  else if !t.checks.all fun c => (c.check E).isNone then
    dos 100 REJECT_INVALID "block-validation-failed"
  else .ok ()

/-- The result for a block that is only checked. -/
def connectedOnly (t : ConnectTotals) : ConnectResult where
  nFees := t.nFees
  nMint := t.nValueOut - t.nValueIn + t.nFees
  nExpectedMint :=
    getBlockValue params pindex.nHeight + if block.isProofOfWork then t.nFees else 0
  undo := none
  pindex := pindex

/-- Writing the undo information: a file is written if there is none. -/
def writeUndo (t : ConnectTotals) : Result ConnectResult :=
  let r := connectedOnly params block pindex t
  let raised := { pindex with
    nStatus := { pindex.nStatus with haveUndo := true }.raise BlockStatus.BLOCK_VALID_SCRIPTS }
  if pindex.nStatus.haveUndo then .ok { r with pindex := raised }
  else match pindex.pprev with
    | none => .error (.outOfBounds "pindex->pprev->GetBlockHash()")
    | some hashPrev =>
      .ok { r with undo := some (undoWriteToDisk E t.vtxundo hashPrev), pindex := raised }

/-- What `ConnectBlock` does after the loop. -/
def finishConnect (fJustCheck : Bool) (t : ConnectTotals) : Stateful Failure σ ConnectResult :=
  pushAnchor E t.saplingTree >>= fun _ =>
  ofResult (checkConnected E params block pindex t) >>= fun _ =>
  if fJustCheck then pure (connectedOnly params block pindex t)
  else ofResult (writeUndo E params block pindex t) >>= fun r =>
    setBestBlock pindex.hashBlock >>= fun _ => pure r

/-- `ConnectBlock`. The transactions of the genesis block are not connected. -/
def connectBlock (fJustCheck : Bool) : Stateful Failure σ ConnectResult :=
  ofResult (checkBlockAgain E params N block fJustCheck) >>= fun _ =>
  getBestBlock >>= fun best =>
  if pindex.pprev.getD BaseUint.zero ≠ best then
    fail (.assertion "hashPrevBlock == view.GetBestBlock()")
  else if block.getHash E.toHashing = params.consensus.hashGenesisBlock then
    (if fJustCheck then pure () else setBestBlock pindex.hashBlock) >>= fun _ =>
      pure ⟨0, 0, 0, none, pindex⟩
  else ofResult (checkConnectHeader params block pindex) >>= fun _ =>
    connectTxs E params N block pindex >>= finishConnect E params block pindex fJustCheck

variable {E params N block pindex}

/-- How a success of `ConnectBlock` comes about, for a block other than genesis. -/
theorem connectBlock_eq_ok {v v' : σ} {r : ConnectResult} {fJustCheck : Bool}
    (hgenesis : block.getHash E ≠ params.consensus.hashGenesisBlock)
    (h : (connectBlock E params N block pindex fJustCheck).run v = .ok (r, v')) :
    (∃ b, checkBlockAgain E params N block fJustCheck = .ok b) ∧
    ∃ best v₁ t v₂, getBestBlock.run v = .ok (best, v₁) ∧
      pindex.pprev.getD BaseUint.zero = best ∧ checkConnectHeader params block pindex = .ok () ∧
      (connectTxs E params N block pindex).run v₁ = .ok (t, v₂) ∧
      (finishConnect E params block pindex fJustCheck t).run v₂ = .ok (r, v') := by
  obtain ⟨b, hcheck, h⟩ := run_ofResult_bind.mp h
  obtain ⟨best, v₁, hbest, h⟩ := run_bind_eq_ok.mp h
  obtain ⟨hprev, h⟩ := run_guard_eq_ok.mp h
  rw [if_neg hgenesis] at h
  obtain ⟨_, hheader, h⟩ := run_ofResult_bind.mp h
  obtain ⟨t, v₂, htxs, h⟩ := run_bind_eq_ok.mp h
  exact ⟨⟨b, hcheck⟩, best, v₁, t, v₂, hbest, not_not.mp hprev, hheader, htxs, h⟩

end Passion
