import Passion.Staking.MultiTier
import Passion.Staking.ProofOfStake

/-!
# Creating a coinstake

`CWallet::CreateCoinStake` of `wallet.cpp` with `CPivStake::CreateTxOuts` of `stakeinput.cpp` and
`Stake` of `kernel.cpp`.

What the search reads from the rest of the node (the last block, the locks, the clock, what has been
spent) can change while it goes on, so every output comes with the moment at which it is tried. Left
out: the staker status, the log, and the list of coins handed back.
-/

namespace Passion

open MachineNumber Opcode

/-- `MAX_STANDARD_TX_SIZE`. -/
def MAX_STANDARD_TX_SIZE : ℕ := 100000

/-- `DEFAULT_BLOCK_MAX_SIZE`. -/
def DEFAULT_BLOCK_MAX_SIZE : ℕ := 750000

/-- `CStakeableOutput`: an output of a wallet transaction and the block it is in. The index
is an `int`, taken from a loop over the outputs. -/
structure CStakeableOutput where
  tx : CTransaction
  i : ℕ
  pindex : CBlockIndex
  index_lt : i < tx.vout.length
  index_int : i < 2 ^ 31

namespace CStakeableOutput

/-- `COutPoint(it->tx->GetHash(), it->i)`. -/
def outPoint (H : Hashing) (coin : CStakeableOutput) : COutPoint :=
  ⟨coin.tx.getHash H, UInt32.ofNat coin.i⟩

/-- The `CPivStake` of the output. -/
def stakeInput (H : Hashing) (coin : CStakeableOutput) : CPivStake :=
  ⟨coin.tx.vout.get ⟨coin.i, coin.index_lt⟩, coin.outPoint H, coin.pindex⟩

end CStakeableOutput

/-- What the wallet and the node say at one moment of the search. -/
structure WalletMoment where
  /-- `m_last_block_processed_height`. -/
  nLastBlockHeight : ℤ
  isLocked : Bool
  shutdownRequested : Bool
  isSpent : COutPoint → Bool
  /-- `GetAdjustedTime()`. -/
  nAdjustedTime : ℤ

/-- What the search uses of the wallet. -/
structure CWallet where
  nStakeSplitThreshold : ℤ
  /-- `GetKey`: the public key of the private key with that id. -/
  getKey : Bytes → Option Bytes

/-- What the signing uses of the wallet. -/
structure Signer where
  getWalletTx : Uint256 → Option CTransaction
  /-- `SignSignature(*this, txFrom, txTo, nIn, SIGHASH_ALL, true)`: whether it succeeds, and
  the script signature it leaves in the input. -/
  signSignature : CTransaction → CTransaction → ℕ → Bool × CScript

/-! ## The kernel -/

/-- `GetTimeSlot`. -/
def getTimeSlot (params : CChainParams) (nTime : ℤ) : ℤ :=
  nTime.tdiv params.consensus.nTimeSlotLength * params.consensus.nTimeSlotLength

/-- The time `Stake` tries. -/
def stakeTime (params : CChainParams) (nAdjustedTime : ℤ) : ℤ :=
  if params.isRegTestNet then nAdjustedTime else getTimeSlot params nAdjustedTime

/-- `Stake`, for the time it has set. -/
def stake (H : Hashing) (params : CChainParams) (pindexPrev : CBlockIndex)
    (stakeInput : CPivStake) (nBits : UInt32) (nTimeTx : ℤ) : Bool :=
  if nTimeTx ≤ pindexPrev.nTime.toNat ∧ !params.isRegTestNet then false
  else (CStakeKernel.ofStake pindexPrev stakeInput nBits
    (UInt32.ofNat (nTimeTx % 2 ^ 32).toNat)).checkKernelHash H params

/-! ## The outputs -/

/-- The script of the outputs of a stake: that of the staked output, with the key in place of
its hash where only keys are allowed. Nothing if the type is not supported or the key is not
there. -/
def CPivStake.outputScript (stake : CPivStake) (wallet : CWallet) (onlyP2PK : Bool) :
    Option CScript :=
  let scriptPubKeyKernel := stake.outputFrom.scriptPubKey
  match solver scriptPubKeyKernel with
  | .pubkey _ => some scriptPubKeyKernel
  | .pubkeyhash =>
    (wallet.getKey ((scriptPubKeyKernel.drop 3).take 20)).map fun pubKey =>
      if onlyP2PK then CScript.pushData pubKey ++ [OP_CHECKSIG] else scriptPubKeyKernel
  | .coldstake =>
    (wallet.getKey ((scriptPubKeyKernel.drop 6).take 20)).map fun _ => scriptPubKeyKernel
  | .other => none

/-- The number of outputs of a stake. The quotient is cast to an `int`. -/
def splitCount (nStakeSplitThreshold nTotal : ℤ) : ℕ :=
  if nStakeSplitThreshold > 0 then
    let nSplit := toInt32 (nTotal.tdiv nStakeSplitThreshold)
    if nSplit > 1 then min nSplit.toNat (MAX_STANDARD_TX_SIZE >>> 11) else 1
  else 1

/-- `CPivStake::CreateTxOuts`. -/
def CPivStake.createTxOuts (stake : CPivStake) (wallet : CWallet) (nTotal : ℤ)
    (onlyP2PK : Bool) : Option (List CTxOut) :=
  (stake.outputScript wallet onlyP2PK).map fun scriptPubKey =>
    List.replicate (splitCount wallet.nStakeSplitThreshold nTotal) ⟨0, scriptPubKey⟩

/-- The output with its value replaced. -/
def CTxOut.withValue (v : ℤ) (out : CTxOut) : CTxOut := { out with nValue := v }

/-- The value is put on the outputs behind the first: equal shares, and what remains on the
last one. -/
def setOutputAmounts (vout : List CTxOut) (nCredit : ℤ) : List CTxOut :=
  let outputs := vout.length - 1
  let nShare := nCredit.tdiv outputs
  let split := if outputs > 1 then
      (List.range' 1 (outputs - 1)).foldl
        (fun (s : List CTxOut × ℤ) i => (s.1.modify i (CTxOut.withValue nShare), s.2 - nShare))
        (vout, nCredit)
    else (vout, nCredit)
  split.1.modify outputs fun out => out.withValue (out.nValue + split.2)

/-! ## The search -/

/-- An available output and the moment at which it is tried. -/
structure StakeTry where
  coin : CStakeableOutput
  now : WalletMoment

/-- What the search carries. -/
structure KernelSearch where
  fKernelFound : Bool
  txNew : CTransaction
  nTxNewTime : ℤ

section
variable (pay : ℤ → ℕ → ℤ) (H : Hashing) (params : CChainParams) (mt : CMultiTier)
variable (view : CCoinsView) (wallet : CWallet) (pindexPrev : CBlockIndex) (nBits : UInt32)

namespace StakeTry

/-- A new block came in, or the wallet is locked, or a shutdown is requested. -/
def interrupted (t : StakeTry) : Bool :=
  decide (t.now.nLastBlockHeight ≠ pindexPrev.nHeight) || t.now.isLocked ||
    t.now.shutdownRequested

/-- The output has been spent. -/
def spent (t : StakeTry) : Bool := t.now.isSpent (t.coin.outPoint H)

/-- The kernel meets the target. -/
def hits (t : StakeTry) : Bool :=
  stake H params pindexPrev (t.coin.stakeInput H) nBits (stakeTime params t.now.nAdjustedTime)

/-- `nCredit`: the staked value and the reward. -/
def credit (t : StakeTry) : ℤ :=
  (t.coin.stakeInput H).getValue + getBlockValue params (pindexPrev.nHeight + 1)

/-- The outputs for the stake. -/
def txOuts (t : StakeTry) : Option (List CTxOut) :=
  (t.coin.stakeInput H).createTxOuts wallet (t.credit H params pindexPrev)
    (!params.consensus.networkUpgradeActive (pindexPrev.nHeight + 1) .upgradeV5_0)

end StakeTry

/-- The end of the loop's body, once there are outputs: `none` if the transaction is too
large. -/
def finishStake (t : StakeTry) (txNew : CTransaction) (outs : List CTxOut) : Option CTransaction :=
  let txNew := { txNew with
    vout := setOutputAmounts (txNew.vout ++ outs) (t.credit H params pindexPrev) }
  if txNew.serialize.length ≥ DEFAULT_BLOCK_MAX_SIZE / 5 then none
  else some { txNew with
    vout := fillTransactionMultiTier pay H mt view pindexPrev
      (getBlockValue params (pindexPrev.nHeight + 1)) txNew.vout
    vin := txNew.vin ++ [⟨t.coin.outPoint H, [], 0xffffffff⟩] }

/-- The loop over the available outputs; `none` where the function returns `false` from
inside. A spent output leaves `fKernelFound` as the output before it has set it, and so does
one whose outputs cannot be created. -/
def searchKernel : List StakeTry → KernelSearch → Option KernelSearch
  | [], s => some s
  | t :: ts, s =>
    if t.interrupted pindexPrev then none
    else if t.spent H then searchKernel ts s
    else
      let s := { s with
        fKernelFound := t.hits H params pindexPrev nBits
        nTxNewTime := stakeTime params t.now.nAdjustedTime }
      if !s.fKernelFound then searchKernel ts s
      else match t.txOuts H params wallet pindexPrev with
        | none => searchKernel ts s
        | some outs =>
          (finishStake pay H params mt view pindexPrev t s.txNew outs).map fun txNew =>
            { s with txNew := txNew }

/-- One step of the loop that signs the inputs. -/
def signInput (signer : Signer) (txNew : CTransaction) (nIn : ℕ) : Option CTransaction :=
  match txNew.vin[nIn]? with
  | none => none
  | some txin =>
    match signer.getWalletTx txin.prevout.hash with
    | none => none
    | some wtx =>
      let (ok, scriptSig) := signer.signSignature wtx txNew nIn
      if ok then
        some { txNew with vin := txNew.vin.modify nIn fun i => { i with scriptSig := scriptSig } }
      else none

/-- `CreateCoinStake`: `none` for `false`, else the transaction and its time. -/
def createCoinStake (signer : Signer) (txNew : CTransaction) (nTxNewTime : ℤ)
    (availableCoins : List StakeTry) : Option (CTransaction × ℤ) := do
  let txNew := { txNew with vin := [], vout := [⟨0, []⟩] }
  let s ← searchKernel pay H params mt view wallet pindexPrev nBits availableCoins
    ⟨false, txNew, nTxNewTime⟩
  if !s.fKernelFound then none
  else
    let txNew ← (List.range s.txNew.vin.length).foldlM (signInput signer) s.txNew
    some (txNew, s.nTxNewTime)

end

end Passion
