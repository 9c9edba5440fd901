import Passion.Coins.View
import Passion.Common.Layered

/-!
# Consensus code over a coins view

What validation does with a coins view goes through a handful of operations. They are a
class here, with the cache of `coins.cpp` as its instance, and the functions that use them
(`HaveInputs`, `GetValueIn`, `UpdateCoins` and so on) are written once over the class.
-/

namespace Passion

open Stateful

/-- The operations of `CCoinsViewCache` that validation uses. -/
class CoinsView (σ : Type) where
  accessCoin : COutPoint → Stateful Failure σ Coin
  haveCoin : COutPoint → Stateful Failure σ Bool
  addCoin : COutPoint → Coin → Bool → Stateful Failure σ Unit
  spendCoin : COutPoint → Stateful Failure σ Coin
  getNullifier : Uint256 → Stateful Failure σ Bool
  setNullifier : Uint256 → Bool → Stateful Failure σ Unit
  getSaplingAnchorAt : Env → Uint256 → Stateful Failure σ (Option SaplingMerkleTree)
  getBestAnchor : Env → Stateful Failure σ Uint256
  pushAnchor : Env → SaplingMerkleTree → Stateful Failure σ Unit
  popAnchor : Env → Uint256 → Stateful Failure σ Unit
  getBestBlock : Stateful Failure σ Uint256
  setBestBlock : Uint256 → Stateful Failure σ Unit

instance : CoinsView CCoinsViewCache where
  accessCoin o := fun v => .ok (v.accessCoin o)
  haveCoin o := fun v => .ok (v.haveCoin o)
  addCoin o c overwrite := fun v => (v.addCoin o c overwrite).map fun v' => ((), v')
  spendCoin o := fun v => .ok (v.spendCoin o)
  getNullifier nf := fun v => .ok (v.getNullifier nf)
  setNullifier nf spent := fun v => .ok ((), v.setNullifier nf spent)
  getSaplingAnchorAt E rt := fun v => .ok (v.getSaplingAnchorAt E rt)
  getBestAnchor E := fun v => .ok (v.getBestAnchor E)
  pushAnchor E tree := fun v => .ok ((), v.pushAnchor E tree)
  popAnchor E rt := fun v => (v.popAnchor E rt).map fun v' => ((), v')
  getBestBlock := fun v => .ok v.getBestBlock
  setBestBlock h := fun v => .ok ((), v.setBestBlock h)

open CoinsView

variable {σ : Type} [CoinsView σ]

/-- `CCoinsViewCache::HaveInputs`. -/
def haveInputs (tx : CTransaction) : Stateful Failure σ Bool :=
  if tx.isCoinBase then pure true else all (fun txin => haveCoin txin.prevout) tx.vin

/-- `CCoinsViewCache::GetValueIn`. -/
def getValueIn (tx : CTransaction) : Stateful Failure σ ℤ :=
  if tx.isCoinBase then pure 0
  else do
    let nResult ← fold (fun n txin => do
      let coin ← accessCoin txin.prevout
      pure (n + coin.out.nValue)) 0 tx.vin
    let shielded ← ofResult tx.getShieldedValueIn
    pure (nResult + shielded)

/-- The body of the loop of `HaveShieldedRequirements`. -/
def haveSpendRequirements (E : Env) (spend : SpendDescription) : Stateful Failure σ Bool := do
  if ← getNullifier spend.nullifier then pure false
  else do
    let tree ← getSaplingAnchorAt E spend.anchor
    pure tree.isSome

/-- `CCoinsViewCache::HaveShieldedRequirements`. -/
def haveShieldedRequirements (E : Env) (tx : CTransaction) : Stateful Failure σ Bool :=
  if tx.isShieldedTx then all (haveSpendRequirements E) tx.shieldedSpends else pure true

/-- `CCoinsViewCache::SetNullifiers`. -/
def setNullifiers (tx : CTransaction) (spent : Bool) : Stateful Failure σ Unit :=
  forEach (fun spend => setNullifier spend.nullifier spent) tx.shieldedSpends

/-- The outpoints of the outputs of a transaction with the given id, from index `i` on. -/
def outpointsFrom (txid : Uint256) (i : ℕ) : List CTxOut → List (COutPoint × CTxOut)
  | [] => []
  | out :: outs => (⟨txid, UInt32.ofNat i⟩, out) :: outpointsFrom txid (i + 1) outs

/-- The outputs of a transaction with their outpoints. -/
def CTransaction.outputs (H : Hashing) (tx : CTransaction) : List (COutPoint × CTxOut) :=
  outpointsFrom (tx.getHash H) 0 tx.vout

/-- The coin of an output of the transaction. -/
def CTransaction.coin (tx : CTransaction) (nHeight : ℤ) (out : CTxOut) : Coin :=
  Coin.ofTxOut out nHeight tx.isCoinBase tx.isCoinStake

/-- `AddCoins`. -/
def addCoins (H : Hashing) (tx : CTransaction) (nHeight : ℤ) (check : Bool) :
    Stateful Failure σ Unit :=
  forEach (fun p => (if check then haveCoin p.1 else pure false) >>= fun overwrite =>
    addCoin p.1 (tx.coin nHeight p.2) overwrite) (tx.outputs H)

/-- The part of `UpdateCoins` that marks the inputs as spent. A coinbase spends none. -/
def spendInputs (tx : CTransaction) : Stateful Failure σ (List Coin) :=
  if tx.isCoinBase then pure [] else collect (fun txin => spendCoin txin.prevout) tx.vin

/-- `UpdateCoins`: the coins the transaction spends, for its undo record. -/
def updateCoins (H : Hashing) (tx : CTransaction) (nHeight : ℤ) :
    Stateful Failure σ (List Coin) := do
  let vprevout ← spendInputs tx
  setNullifiers tx true
  addCoins H tx nHeight false
  pure vprevout

/-- `MAX_OUTPUTS_PER_BLOCK` of `coins.cpp`. -/
def MAX_OUTPUTS_PER_BLOCK : ℕ := 2000000 / 9

/-- The loop of `AccessByTxid`, over the `fuel` indices from `n` on. -/
def accessByTxidFrom (txid : Uint256) (n : ℕ) : ℕ → Stateful Failure σ Coin
  | 0 => pure .empty
  | fuel + 1 => do
    let alternate ← accessCoin ⟨txid, UInt32.ofNat n⟩
    if alternate.isSpent then accessByTxidFrom txid (n + 1) fuel else pure alternate

/-- `AccessByTxid`. -/
def accessByTxid (txid : Uint256) : Stateful Failure σ Coin :=
  accessByTxidFrom txid 0 MAX_OUTPUTS_PER_BLOCK

/-- `GetP2SHSigOpCount`. -/
def getP2SHSigOpCount (tx : CTransaction) : Stateful Failure σ ℕ :=
  if tx.isCoinBase then pure 0
  else fold (fun n txin => do
    let coin ← accessCoin txin.prevout
    if CScript.isPayToScriptHash coin.out.scriptPubKey then
      pure (n + CScript.getSigOpCountP2SH coin.out.scriptPubKey txin.scriptSig)
    else pure n) 0 tx.vin

/-! ## Looking at a view

Most of what validation does with a view is to read it. A relation that no single read
disturbs is not disturbed by `HaveInputs`, `GetValueIn`, `HaveShieldedRequirements` or
`GetP2SHSigOpCount` either.
-/

open Stateful Skips

/-- **Reads cannot be seen**: what a view is related to stays related when the view is
read. -/
structure SkipsReads {σ τ : Type} [CoinsView σ] (E : Env) (R : σ → τ → Prop) : Prop where
  accessCoin : ∀ o, Skips R (CoinsView.accessCoin o : Stateful Failure σ Coin)
  haveCoin : ∀ o, Skips R (CoinsView.haveCoin o : Stateful Failure σ Bool)
  getNullifier : ∀ nf, Skips R (CoinsView.getNullifier nf : Stateful Failure σ Bool)
  getSaplingAnchorAt : ∀ rt, Skips R (CoinsView.getSaplingAnchorAt E rt :
    Stateful Failure σ (Option SaplingMerkleTree))
  getBestAnchor : Skips R (CoinsView.getBestAnchor E : Stateful Failure σ Uint256)
  getBestBlock : Skips R (CoinsView.getBestBlock : Stateful Failure σ Uint256)

namespace SkipsReads

variable {σ τ : Type} [CoinsView σ] {E : Env} {R : σ → τ → Prop} (h : SkipsReads E R)
variable (tx : CTransaction)

include h

theorem haveInputs : Skips R (haveInputs tx : Stateful Failure σ Bool) :=
  ite (fun _ => pure true) fun _ => all fun txin _ => h.haveCoin txin.prevout

theorem getValueIn : Skips R (getValueIn tx : Stateful Failure σ ℤ) := by
  refine ite (fun _ => pure 0) fun _ => bind (fold (fun n txin _ => ?_) 0) ?_
  · exact (h.accessCoin txin.prevout).bind fun coin => pure _
  · intro nResult
    exact (Skips.ofResult _).bind fun shielded => Skips.pure _

theorem haveShieldedRequirements :
    Skips R (haveShieldedRequirements E tx : Stateful Failure σ Bool) := by
  refine ite (fun _ => all fun spend _ => ?_) fun _ => pure true
  refine (h.getNullifier spend.nullifier).bind fun seen =>
    ite (fun _ => pure false) fun _ => ?_
  exact (h.getSaplingAnchorAt spend.anchor).bind fun tree => pure _

theorem getP2SHSigOpCount : Skips R (getP2SHSigOpCount tx : Stateful Failure σ ℕ) := by
  refine ite (fun _ => pure 0) fun _ => fold (fun n txin _ => ?_) 0
  exact (h.accessCoin txin.prevout).bind fun coin =>
    ite (fun _ => pure _) fun _ => pure n

end SkipsReads

/-! ## What a coins view means

The state of the chain as plain maps: the unspent coins, the nullifiers seen, the Sapling
anchors, the best anchor and the best block. Every view has such a state, read off its caches
and its database, and a view is *sound* if the flags of its caches tell the truth about what is
below them.
-/

/-- The state of the chain. -/
@[ext] structure ChainState where
  coins : COutPoint → Option Coin
  nullifiers : Uint256 → Bool
  anchors : Uint256 → Option SaplingMerkleTree
  bestAnchor : Uint256
  bestBlock : Uint256

namespace ChainState

variable (s : ChainState)

/-- The state with the coin at an outpoint replaced. -/
def setCoin (o : COutPoint) (c : Option Coin) : ChainState :=
  { s with coins := Function.update s.coins o c }

/-- The state with the answer for a nullifier replaced. -/
def setNullifier (nf : Uint256) (spent : Bool) : ChainState :=
  { s with nullifiers := Function.update s.nullifiers nf spent }

/-- The state with an anchor replaced and the best anchor set. -/
def setAnchor (rt : Uint256) (t : Option SaplingMerkleTree) (best : Uint256) : ChainState :=
  { s with anchors := Function.update s.anchors rt t, bestAnchor := best }

/-- The state with the best block set. -/
def setBestBlock (h : Uint256) : ChainState := { s with bestBlock := h }

end ChainState

/-- **The abstract state**: the unspent coins, the sets of nullifiers and anchors, and the
best anchor and block. -/
@[ext] structure AbstractState where
  coins : COutPoint → Option Coin
  nullifiers : Set Uint256
  anchors : Set Uint256
  bestAnchor : Uint256
  bestBlock : Uint256

/-- The abstract state of a state: of the anchors only the roots. -/
def ChainState.abstract (s : ChainState) : AbstractState where
  coins := s.coins
  nullifiers := {nf | s.nullifiers nf = true}
  anchors := {rt | (s.anchors rt).isSome}
  bestAnchor := s.bestAnchor
  bestBlock := s.bestBlock

/-! ## The state of a view -/

/-- The coin of an entry, if it is unspent. -/
def CCoinsCacheEntry.unspent (e : CCoinsCacheEntry) : Option Coin :=
  if e.coin.isSpent then none else some e.coin

/-- The tree of an entry, if it is entered. -/
def CAnchorsSaplingCacheEntry.anchor (e : CAnchorsSaplingCacheEntry) : Option SaplingMerkleTree :=
  if e.entered then some e.tree else none

namespace CacheData

open Layered

/-- The coins of a cache as a layer. -/
def coinLayer (c : CacheData) : Layer COutPoint (Option Coin) := fun o =>
  (c.cacheCoins.lookup o).map fun e => ⟨e.unspent, e.dirty, e.fresh⟩

/-- The anchors of a cache as a layer. -/
def anchorLayer (c : CacheData) : Layer Uint256 (Option SaplingMerkleTree) := fun rt =>
  (c.cacheSaplingAnchors.lookup rt).map fun e => ⟨e.anchor, e.dirty, false⟩

/-- The nullifiers of a cache as a layer. -/
def nullifierLayer (c : CacheData) : Layer Uint256 Bool := fun nf =>
  (c.cacheSaplingNullifiers.lookup nf).map fun e => ⟨e.entered, e.dirty, false⟩

/-- What is read through a cache over a view in state `b`. -/
def state (c : CacheData) (b : ChainState) : ChainState where
  coins := view c.coinLayer b.coins
  nullifiers := view c.nullifierLayer b.nullifiers
  anchors := view c.anchorLayer b.anchors
  bestAnchor := if c.hashSaplingAnchor.isNull then b.bestAnchor else c.hashSaplingAnchor
  bestBlock := if c.hashBlock.isNull then b.bestBlock else c.hashBlock

/-- The flags of the cache tell the truth about a view below in state `b`, and a spent entry
holds a cleared coin. -/
structure Sound (c : CacheData) (b : ChainState) : Prop where
  coins : Layered.Sound c.coinLayer b.coins
  cleared : ∀ o e, c.cacheCoins.lookup o = some e → e.coin.isSpent = true → e.coin = .empty
  anchors : Layered.Sound c.anchorLayer b.anchors
  nullifiers : Layered.Sound c.nullifierLayer b.nullifiers

@[simp] theorem state_empty (b : ChainState) : empty.state b = b := by
  ext <;> rfl

theorem sound_empty (b : ChainState) : empty.Sound b where
  coins := Layered.sound_empty _
  cleared := fun _ _ h => by cases h
  anchors := Layered.sound_empty _
  nullifiers := Layered.sound_empty _

end CacheData

/-- The state of the database. -/
def CCoinsViewDB.state (E : Env) (d : CCoinsViewDB) : ChainState where
  coins := d.coins.lookup
  nullifiers := fun nf => d.saplingNullifiers.contains nf
  anchors := fun rt =>
    if rt = SaplingMerkleTree.emptyRoot E then some .empty else d.saplingAnchors.lookup rt
  bestAnchor := d.bestSaplingAnchor.getD (SaplingMerkleTree.emptyRoot E)
  bestBlock := d.bestBlock

namespace CCoinsView

/-- The state of a view. -/
def state (E : Env) : CCoinsView → ChainState
  | .db d => d.state E
  | .cache c base => c.state (base.state E)

/-- **A sound view**: the database holds unspent coins only and every cache is sound over
what is below it. -/
def Sound (E : Env) : CCoinsView → Prop
  | .db d => ∀ o c, d.coins.lookup o = some c → c.isSpent = false
  | .cache c base => base.Sound E ∧ c.Sound (base.state E)

end CCoinsView

namespace CCoinsViewCache

/-- The state of a cache. -/
def state (E : Env) (v : CCoinsViewCache) : ChainState := v.cache.state (v.base.state E)

/-- A cache that is sound, over a sound view. -/
def Sound (E : Env) (v : CCoinsViewCache) : Prop :=
  v.base.Sound E ∧ v.cache.Sound (v.base.state E)

@[simp] theorem state_toView (E : Env) (v : CCoinsViewCache) : v.toView.state E = v.state E := rfl

@[simp] theorem sound_toView {E : Env} {v : CCoinsViewCache} : v.toView.Sound E ↔ v.Sound E :=
  Iff.rfl

@[simp] theorem state_onBase (E : Env) (b : CCoinsView) : (onBase b).state E = b.state E :=
  CacheData.state_empty _

/-- A new cache over a sound view is sound. -/
theorem sound_onBase {E : Env} {b : CCoinsView} (h : b.Sound E) : (onBase b).Sound E :=
  ⟨h, CacheData.sound_empty _⟩

end CCoinsViewCache

end Passion
