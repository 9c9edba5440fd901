import Passion.Validation.CheckBlock
import Passion.Common.OwnerIndex
import Passion.Common.Traversal

/-!
# The memory pool

`CTxMemPoolEntry` and `CTxMemPool` of `txmempool.cpp`: the transactions with their fees and counts,
the two orders by which the block assembler chooses them, their statistics, the links between them,
the two indexes of what they spend, and the functions that keep all of this in step. A set of
iterators is a set of ids, in the order of which a loop meets it.

Fees, deltas and their sums are 64-bit numbers that wrap; sizes and counts are integers without a
width. Priorities and scores are compared in floating point, whose operations are a parameter.
Memory use is a parameter, and so is the first entry of the index by descendant score, whose order
among equal scores depends on the history of the index. Left out: the fee estimator, the rolling
minimum fee, the notifications, and the list of outpoints that `TrimToSize` returns for the coins
cache.
-/

namespace Passion

open Traversal

variable {D : Type}

/-- The operations of `double` that the pool uses. -/
structure DoubleOps (D : Type) where
  ofInt : ℤ → D
  add : D → D → D
  mul : D → D → D
  div : D → D → D
  eq : D → D → Bool
  lt : D → D → Bool

/-- `CTxMemPoolEntry`. The size and the shielded flag are those of the transaction, and the
count holds the legacy signature operations with those behind script hashes. -/
structure CTxMemPoolEntry (D : Type) where
  tx : CTransaction
  nFee : Int64
  feeDelta : Int64
  sigOpCount : ℕ
  entryPriority : D
  entryHeight : UInt32
  inChainInputValue : ℤ
  legacy_le_sigOpCount : getLegacySigOpCount tx ≤ sigOpCount

/-- `CTransaction::CalculateModifiedSize`. -/
def CTransaction.calculateModifiedSize (tx : CTransaction) (nTxSize : ℕ) : ℕ :=
  tx.vin.foldl (fun nTxSize txin =>
      let offset := 41 + min 110 txin.scriptSig.length
      if nTxSize > offset then nTxSize - offset else nTxSize)
    (if nTxSize = 0 then tx.getTotalSize else nTxSize)

namespace CTxMemPoolEntry

variable (ops : DoubleOps D) (H : Hashing) (e : CTxMemPoolEntry D)

/-- `GetTxSize`. -/
def nTxSize : ℕ := e.tx.getTotalSize

/-- `IsShielded`. -/
def isShielded : Bool := e.tx.isShieldedTx

/-- `nModSize`. -/
def nModSize : ℕ := e.tx.calculateModifiedSize e.nTxSize

/-- `GetModifiedFee`. -/
def modifiedFee : Int64 := e.nFee + e.feeDelta

/-- The id by which sets and maps of the pool know the entry. -/
def hash : Uint256 := e.tx.getHash H

/-- `GetPriority`. The heights are subtracted as `unsigned int`. -/
def getPriority (currentHeight : UInt32) : D :=
  let nHeights : ℤ := (currentHeight - e.entryHeight).toNat
  let deltaPriority :=
    ops.div (ops.mul (ops.ofInt nHeights) (ops.ofInt e.inChainInputValue)) (ops.ofInt e.nModSize)
  let dResult := ops.add e.entryPriority deltaPriority
  if ops.lt dResult (ops.ofInt 0) then ops.ofInt 0 else dResult

/-- `CompareTxMemPoolEntryByScore`: fee for size, and the id where it is equal. -/
def compareByScore (a b : CTxMemPoolEntry D) : Bool :=
  let f1 := ops.mul (ops.ofInt a.modifiedFee.toInt) (ops.ofInt b.nTxSize)
  let f2 := ops.mul (ops.ofInt b.modifiedFee.toInt) (ops.ofInt a.nTxSize)
  if ops.eq f1 f2 then (b.hash H).lt (a.hash H) else ops.lt f2 f1

/-- `TxCoinAgePriorityCompare`. -/
def compareByPriority (a b : D × CTxMemPoolEntry D) : Bool :=
  if ops.eq a.1 b.1 then compareByScore ops H b.2 a.2 else ops.lt a.1 b.1

end CTxMemPoolEntry

/-- `AllowFree`. -/
def allowFree {D : Type} (ops : DoubleOps D) (dPriority : D) : Bool :=
  ops.lt (ops.ofInt (COIN * 1440 / 250)) dPriority

/-- `CFeeRate`. -/
structure CFeeRate where
  nSatoshisPerK : ℤ

/-- `CFeeRate::GetFee`. The product is taken as `uint64_t`, like the size. -/
def CFeeRate.getFee (rate : CFeeRate) (nSize : ℕ) : ℤ :=
  let nFee := (rate.nSatoshisPerK * nSize) % 2 ^ 64 / 1000
  if nFee = 0 ∧ rate.nSatoshisPerK > 0 then rate.nSatoshisPerK else nFee

/-! ## Entries with their statistics -/

/-- A `CTxMemPoolEntry` with the fields that the pool itself reads and keeps: the time it came,
what it spends, and the statistics over its descendants and its ancestors in the pool. -/
structure PoolEntry (D : Type) extends CTxMemPoolEntry D where
  nTime : ℤ
  spendsCoinbaseOrCoinstake : Bool
  nCountWithDescendants : ℤ
  nSizeWithDescendants : ℤ
  nModFeesWithDescendants : Int64
  nCountWithAncestors : ℤ
  nSizeWithAncestors : ℤ
  nModFeesWithAncestors : Int64
  nSigOpCountWithAncestors : ℤ

namespace PoolEntry

/-- The constructor of `CTxMemPoolEntry`. It knows no fee delta and no relatives. -/
def ofEntry (e : CTxMemPoolEntry D) (nTime : ℤ) (spendsCoinbaseOrCoinstake : Bool) :
    PoolEntry D where
  toCTxMemPoolEntry := { e with feeDelta := 0 }
  nTime := nTime
  spendsCoinbaseOrCoinstake := spendsCoinbaseOrCoinstake
  nCountWithDescendants := 1
  nSizeWithDescendants := e.nTxSize
  nModFeesWithDescendants := e.nFee
  nCountWithAncestors := 1
  nSizeWithAncestors := e.nTxSize
  nModFeesWithAncestors := e.nFee
  nSigOpCountWithAncestors := e.sigOpCount

variable (e : PoolEntry D)

/-- `UpdateFeeDelta`. -/
def updateFeeDelta (newFeeDelta : Int64) : PoolEntry D :=
  { e with
    nModFeesWithDescendants := e.nModFeesWithDescendants + (newFeeDelta - e.feeDelta)
    nModFeesWithAncestors := e.nModFeesWithAncestors + (newFeeDelta - e.feeDelta)
    feeDelta := newFeeDelta }

/-- `UpdateDescendantState`. -/
def updateDescendantState (modifySize : ℤ) (modifyFee : Int64) (modifyCount : ℤ) :
    Result (PoolEntry D) :=
  if ¬ 0 < e.nSizeWithDescendants + modifySize then
    .error (.assertion "int64_t(nSizeWithDescendants) > 0")
  else if ¬ 0 < e.nCountWithDescendants + modifyCount then
    .error (.assertion "int64_t(nCountWithDescendants) > 0")
  else .ok { e with
    nSizeWithDescendants := e.nSizeWithDescendants + modifySize
    nModFeesWithDescendants := e.nModFeesWithDescendants + modifyFee
    nCountWithDescendants := e.nCountWithDescendants + modifyCount }

/-- `UpdateAncestorState`. -/
def updateAncestorState (modifySize : ℤ) (modifyFee : Int64) (modifyCount modifySigOps : ℤ) :
    Result (PoolEntry D) :=
  if ¬ 0 < e.nSizeWithAncestors + modifySize then
    .error (.assertion "int64_t(nSizeWithAncestors) > 0")
  else if ¬ 0 < e.nCountWithAncestors + modifyCount then
    .error (.assertion "int64_t(nCountWithAncestors) > 0")
  else if ¬ 0 ≤ e.nSigOpCountWithAncestors + modifySigOps then
    .error (.assertion "int(nSigOpCountWithAncestors) >= 0")
  else .ok { e with
    nSizeWithAncestors := e.nSizeWithAncestors + modifySize
    nModFeesWithAncestors := e.nModFeesWithAncestors + modifyFee
    nCountWithAncestors := e.nCountWithAncestors + modifyCount
    nSigOpCountWithAncestors := e.nSigOpCountWithAncestors + modifySigOps }

end PoolEntry

/-- `TxLinks` of an entry, as sets of ids. -/
structure PoolLinks where
  parents : Finset Uint256
  children : Finset Uint256

/-- `TxLinks()`. -/
def PoolLinks.empty : PoolLinks := ⟨∅, ∅⟩

/-- `CTxMemPool`. -/
structure TxMemPool (D : Type) where
  mapTx : AList fun _ : Uint256 => PoolEntry D
  mapLinks : AList fun _ : Uint256 => PoolLinks
  /-- `mapNextTx`: which transaction of the pool spends an outpoint. -/
  mapNextTx : AList fun _ : COutPoint => CTransaction
  /-- `mapSaplingNullifiers`: which transaction of the pool reveals a nullifier. -/
  mapSaplingNullifiers : AList fun _ : Uint256 => CTransaction
  /-- `mapDeltas`: what `PrioritiseTransaction` adds to priorities and fees. -/
  mapDeltas : AList fun _ : Uint256 => D × Int64
  nCheckFrequency : ℕ

/-- What the pool uses of the rest of the program. -/
structure PoolEnv (D : Type) extends Hashing where
  ops : DoubleOps D
  /-- `DynamicMemoryUsage`. -/
  dynamicMemoryUsage : TxMemPool D → ℕ
  /-- The first entry of the index `descendant_score`. -/
  lowestScore : TxMemPool D → Option Uint256
  mem_of_lowestScore : ∀ p h, lowestScore p = some h → h ∈ p.mapTx

instance {D : Type} : CoeOut (PoolEnv D) Hashing := ⟨PoolEnv.toHashing⟩

/-- The outpoints a transaction spends. -/
def CTransaction.prevouts (tx : CTransaction) : List COutPoint := tx.vin.map (·.prevout)

/-- The nullifiers that the pool keeps of a transaction. -/
def CTransaction.poolNullifiers (tx : CTransaction) : List Uint256 :=
  if tx.isShieldedTx then tx.shieldedSpends.map (·.nullifier) else []

namespace TxMemPool

variable (E : PoolEnv D) (p : TxMemPool D)

/-- The pool a node starts with. -/
def empty (nCheckFrequency : ℕ) : TxMemPool D := ⟨∅, ∅, ∅, ∅, ∅, nCheckFrequency⟩

/-- The ids of the entries. -/
def ids : Finset Uint256 := p.mapTx.keys.toFinset

/-- The entries, as the block assembler reads them. -/
def entries : List (CTxMemPoolEntry D) := p.mapTx.entries.map fun e => e.2.toCTxMemPoolEntry

/-- The index `mining_score` of `mapTx`. -/
def miningScore (ops : DoubleOps D) (H : Hashing) : List (CTxMemPoolEntry D) :=
  p.entries.insertionSort fun a b => CTxMemPoolEntry.compareByScore ops H a b = true

/-- The part of `ApplyDeltas` on the priority. -/
def applyPriorityDelta (ops : DoubleOps D) (hash : Uint256) (dPriority : D) : D :=
  match p.mapDeltas.lookup hash with
  | none => dPriority
  | some deltas => ops.add dPriority deltas.1

/-- The entry an iterator points to. -/
def entry (it : Uint256) : Result (PoolEntry D) :=
  match p.mapTx.lookup it with
  | none => .error (.outOfBounds "*it")
  | some e => .ok e

/-- `mapTx.modify`. -/
def modify (it : Uint256) (f : PoolEntry D → Result (PoolEntry D)) : Result (TxMemPool D) :=
  (p.entry it).bind fun e => (f e).map fun e' => { p with mapTx := p.mapTx.insert it e' }

/-- The loop that modifies every entry of a set. -/
def modifyAll (s : Finset Uint256) (f : PoolEntry D → Result (PoolEntry D)) :
    Result (TxMemPool D) :=
  (inOrder s).foldlM (fun p it => p.modify it f) p

/-! ## Links -/

/-- The links of an entry are changed. `mapLinks[it]` makes empty ones where there are none. -/
def modifyLinks (it : Uint256) (f : PoolLinks → PoolLinks) : TxMemPool D :=
  { p with mapLinks := p.mapLinks.insert it (f ((p.mapLinks.lookup it).getD .empty)) }

/-- The loop that changes the links of every entry of a set. -/
def modifyAllLinks (s : Finset Uint256) (f : PoolLinks → PoolLinks) : TxMemPool D :=
  (inOrder s).foldl (fun p it => p.modifyLinks it f) p

/-- `UpdateChild`. -/
def updateChild (it child : Uint256) (add : Bool) : TxMemPool D :=
  p.modifyLinks it fun l =>
    { l with children := if add then insert child l.children else l.children.erase child }

/-- `UpdateParent`. -/
def updateParent (it parent : Uint256) (add : Bool) : TxMemPool D :=
  p.modifyLinks it fun l =>
    { l with parents := if add then insert parent l.parents else l.parents.erase parent }

/-- The links of an entry, which `GetMemPoolParents` and `GetMemPoolChildren` assert. -/
def links (it : Uint256) : Result PoolLinks :=
  match p.mapLinks.lookup it with
  | none => .error (.assertion "it != mapLinks.end()")
  | some l => .ok l

/-- `GetMemPoolParents`. -/
def getMemPoolParents (it : Uint256) : Result (Finset Uint256) := (p.links it).map (·.parents)

/-- `GetMemPoolChildren`. -/
def getMemPoolChildren (it : Uint256) : Result (Finset Uint256) := (p.links it).map (·.children)

/-! ## Ancestors and descendants -/

/-- The four limits of `CalculateMemPoolAncestors`. Nothing exceeds the greatest `uint64_t`,
which stands here as `none`. -/
structure PackageLimits where
  ancestorCount : Option ℕ
  ancestorSize : Option ℕ
  descendantCount : Option ℕ
  descendantSize : Option ℕ

/-- `nNoLimit` for each of them. -/
def PackageLimits.noLimit : PackageLimits := ⟨none, none, none, none⟩

/-- A number is above a limit. -/
def exceeds (n : ℤ) (limit : Option ℕ) : Bool := limit.any fun l : ℕ => decide (n > (l : ℤ))

/-- The checks of `CalculateMemPoolAncestors` on an ancestor. The texts are those of
`errString`, without the id and the limit. -/
def checkAncestor (limits : PackageLimits) (nTxSize totalSizeWithAncestors : ℤ)
    (ancestor : PoolEntry D) : Result Unit :=
  if exceeds (ancestor.nSizeWithDescendants + nTxSize) limits.descendantSize then
    .error (.error "exceeds descendant size limit")
  else if exceeds (ancestor.nCountWithDescendants + 1) limits.descendantCount then
    .error (.error "too many descendants")
  else if exceeds totalSizeWithAncestors limits.ancestorSize then
    .error (.error "exceeds ancestor size limit")
  else .ok ()

/-- The loop of `CalculateMemPoolAncestors`, for at most `n` turns: the parents that are to be
visited and the ancestors found. The number of both grows with every parent, so its check may
wait for the last one. -/
def climbAncestors (limits : PackageLimits) (nTxSize : ℤ) :
    ℕ → Finset Uint256 → Finset Uint256 → ℤ → Result (Finset Uint256)
  | 0, parentHashes, setAncestors, _ =>
    if parentHashes = ∅ then .ok setAncestors
    else .error (.error "CalculateMemPoolAncestors does not return")
  | n + 1, parentHashes, setAncestors, totalSizeWithAncestors =>
    if h : parentHashes.Nonempty then
      let stageit := parentHashes.min' h
      let setAncestors := insert stageit setAncestors
      (p.entry stageit).bind fun stage =>
        (checkAncestor limits nTxSize (totalSizeWithAncestors + stage.nTxSize) stage).bind fun _ =>
        (p.getMemPoolParents stageit).bind fun setMemPoolParents =>
          let parentHashes := parentHashes.erase stageit ∪ (setMemPoolParents \ setAncestors)
          if setMemPoolParents.Nonempty &&
              exceeds (parentHashes.card + setAncestors.card + 1) limits.ancestorCount then
            .error (.error "too many unconfirmed ancestors")
          else climbAncestors limits nTxSize n parentHashes setAncestors
            (totalSizeWithAncestors + stage.nTxSize)
    else .ok setAncestors

/-- The transactions of the pool that a transaction spends from. -/
def parentsInPool (tx : CTransaction) : Finset Uint256 :=
  (tx.prevouts.map (·.hash)).toFinset.filter (· ∈ p.mapTx)

/-- `CalculateMemPoolAncestors` for a transaction that is not in the pool, by its inputs. -/
def calculateMemPoolAncestors (e : CTxMemPoolEntry D) (limits : PackageLimits) :
    Result (Finset Uint256) :=
  let parentHashes := p.parentsInPool e.tx
  if parentHashes.Nonempty && exceeds (parentHashes.card + 1) limits.ancestorCount then
    .error (.error "too many unconfirmed parents")
  else p.climbAncestors limits e.nTxSize p.mapTx.keys.length parentHashes ∅ e.nTxSize

/-- `CalculateMemPoolAncestors` for an entry, by its links and without limits. -/
def ancestorsOf (it : Uint256) : Result (Finset Uint256) :=
  (p.entry it).bind fun e => (p.getMemPoolParents it).bind fun parentHashes =>
    p.climbAncestors .noLimit e.nTxSize p.mapTx.keys.length parentHashes ∅ e.nTxSize

/-- `CalculateDescendants`: the entry and its descendants join the set. -/
def calculateDescendants (setDescendants : Finset Uint256) (it : Uint256) :
    Result (Finset Uint256) :=
  drain (visitNew p.getMemPoolChildren)
    (.error "CalculateDescendants does not return") p.mapTx.keys.length
    (if it ∈ setDescendants then ∅ else {it}) setDescendants

/-- The loop over a set of entries that are removed with their descendants. -/
def withDescendants (s : Finset Uint256) : Result (Finset Uint256) :=
  (inOrder s).foldlM p.calculateDescendants ∅

/-! ## Adding -/

/-- `UpdateAncestorsOf`. -/
def updateAncestorsOf (add : Bool) (it : Uint256) (setAncestors : Finset Uint256) :
    Result (TxMemPool D) :=
  (p.getMemPoolParents it).bind fun parentIters =>
    let p := (inOrder parentIters).foldl (fun p piter => p.updateChild piter it add) p
    (p.entry it).bind fun e =>
      let updateCount : ℤ := if add then 1 else -1
      p.modifyAll setAncestors fun ancestor => ancestor.updateDescendantState
        (updateCount * e.nTxSize) (Int64.ofInt updateCount * e.modifiedFee) updateCount

/-- The loop of `UpdateEntryForAncestors`: size, fee and signature operations. -/
def sumAncestors (setAncestors : Finset Uint256) : Result (ℤ × Int64 × ℤ) :=
  (inOrder setAncestors).foldlM (fun sum ancestorIt =>
    (p.entry ancestorIt).map fun e =>
      (sum.1 + e.nTxSize, sum.2.1 + e.modifiedFee, sum.2.2 + e.sigOpCount)) (0, 0, 0)

/-- `UpdateEntryForAncestors`. -/
def updateEntryForAncestors (it : Uint256) (setAncestors : Finset Uint256) : Result (TxMemPool D) :=
  (p.sumAncestors setAncestors).bind fun sum =>
    p.modify it fun e => e.updateAncestorState sum.1 sum.2.1 setAncestors.card sum.2.2

/-- `mapTx.insert` with `mapLinks.insert`. An entry with the same id stays. -/
def insertEntry (e : PoolEntry D) : TxMemPool D :=
  let hash := e.hash E.toHashing
  { p with
    mapTx := if hash ∈ p.mapTx then p.mapTx else p.mapTx.insert hash e
    mapLinks := if hash ∈ p.mapLinks then p.mapLinks else p.mapLinks.insert hash .empty }

/-- The fee delta of a transaction that was prioritised before it came. -/
def applyFeeDelta (it : Uint256) : Result (TxMemPool D) :=
  match p.mapDeltas.lookup it with
  | none => .ok p
  | some deltas =>
    if deltas.2 ≠ 0 then p.modify it fun e => .ok (e.updateFeeDelta deltas.2) else .ok p

/-- The inputs enter `mapNextTx`. What is there stays. -/
def insertNextTx (tx : CTransaction) : TxMemPool D :=
  { p with mapNextTx := OwnerIndex.insertNew p.mapNextTx tx.prevouts tx }

/-- The parents of a new entry are linked to it. -/
def linkParents (it : Uint256) (tx : CTransaction) : TxMemPool D :=
  (inOrder (p.parentsInPool tx)).foldl (fun p pit => p.updateParent it pit true) p

/-- The nullifiers enter `mapSaplingNullifiers`. -/
def insertNullifiers (tx : CTransaction) : TxMemPool D :=
  { p with
    mapSaplingNullifiers := OwnerIndex.insertAll p.mapSaplingNullifiers tx.poolNullifiers tx }

/-- `addUnchecked` with the ancestors of the entry. -/
def addWithAncestors (e : PoolEntry D) (setAncestors : Finset Uint256) : Result (TxMemPool D) :=
  let newit := e.hash E.toHashing
  ((p.insertEntry E e).applyFeeDelta newit).bind fun p =>
    (p.entry newit).bind fun newEntry =>
      let tx := newEntry.tx
      (((p.insertNextTx tx).linkParents newit tx).updateAncestorsOf true newit setAncestors).bind
        fun p => (p.updateEntryForAncestors newit setAncestors).map fun p => p.insertNullifiers tx

/-- `addUnchecked`. -/
def addUnchecked (e : PoolEntry D) : Result (TxMemPool D) :=
  (p.calculateMemPoolAncestors e.toCTxMemPoolEntry .noLimit).bind (p.addWithAncestors E e)

/-! ## Removing -/

/-- The part of `UpdateForRemoveFromMempool` for the descendants of an entry that goes alone. -/
def updateDescendantsForRemoval (removeIt : Uint256) : Result (TxMemPool D) :=
  (p.calculateDescendants ∅ removeIt).bind fun setDescendants =>
    (p.entry removeIt).bind fun e =>
      p.modifyAll (setDescendants.erase removeIt) fun d =>
        d.updateAncestorState (-e.nTxSize) (-e.modifiedFee) (-1) (-e.sigOpCount)

/-- The part of `UpdateForRemoveFromMempool` for the ancestors of an entry that goes. -/
def updateAncestorsForRemoval (removeIt : Uint256) : Result (TxMemPool D) :=
  (p.ancestorsOf removeIt).bind fun setAncestors =>
    p.updateAncestorsOf false removeIt setAncestors

/-- `UpdateChildrenForRemoval`. -/
def updateChildrenForRemoval (it : Uint256) : Result (TxMemPool D) :=
  (p.getMemPoolChildren it).map fun setMemPoolChildren =>
    (inOrder setMemPoolChildren).foldl (fun p updateIt => p.updateParent updateIt it false) p

/-- `UpdateForRemoveFromMempool`. -/
def updateForRemoveFromMempool (entriesToRemove : Finset Uint256) (updateDescendants : Bool) :
    Result (TxMemPool D) :=
  let l := inOrder entriesToRemove
  (if updateDescendants then l.foldlM updateDescendantsForRemoval p else .ok p).bind fun p =>
    (l.foldlM updateAncestorsForRemoval p).bind fun p => l.foldlM updateChildrenForRemoval p

/-- `removeUnchecked`. -/
def removeUnchecked (it : Uint256) : Result (TxMemPool D) :=
  (p.entry it).map fun e =>
    { p with
      mapNextTx := OwnerIndex.eraseAll p.mapNextTx e.tx.prevouts
      mapSaplingNullifiers := OwnerIndex.eraseAll p.mapSaplingNullifiers e.tx.poolNullifiers
      mapLinks := p.mapLinks.erase it
      mapTx := p.mapTx.erase it }

/-- `RemoveStaged`. -/
def removeStaged (stage : Finset Uint256) (updateDescendants : Bool) : Result (TxMemPool D) :=
  (p.updateForRemoveFromMempool stage updateDescendants).bind fun p =>
    (inOrder stage).foldlM removeUnchecked p

/-- The entries of a set are removed with their descendants. -/
def removeWithDescendants (s : Finset Uint256) : Result (TxMemPool D) :=
  (p.withDescendants s).bind fun stage => p.removeStaged stage false

/-- The loop of `removeRecursive` over the outputs of a transaction that is not in the pool. -/
def spendersOf (txid : Uint256) (nOut : ℕ) : Result (Finset Uint256) :=
  (List.range nOut).foldlM (fun s i =>
    match p.mapNextTx.lookup ⟨txid, UInt32.ofNat i⟩ with
    | none => .ok s
    | some next =>
      if next.getHash E.toHashing ∈ p.mapTx then .ok (insert (next.getHash E.toHashing) s)
      else .error (.assertion "nextit != mapTx.end()")) ∅

/-- `removeRecursive`. -/
def removeRecursive (origTx : CTransaction) : Result (TxMemPool D) :=
  let hash := origTx.getHash E.toHashing
  (if hash ∈ p.mapTx then .ok {hash} else p.spendersOf E hash origTx.vout.length).bind
    fun txToRemove => p.removeWithDescendants txToRemove

/-- `ClearPrioritisation`. -/
def clearPrioritisation (hash : Uint256) : TxMemPool D :=
  { p with mapDeltas := p.mapDeltas.erase hash }

/-- What `removeForReorg` reads of the chain. -/
structure ReorgView where
  /-- `CheckFinalTx`. -/
  checkFinalTx : CTransaction → Bool
  /-- `AccessCoin`. -/
  accessCoin : COutPoint → Coin
  nMemPoolHeight : ℤ
  nCoinbaseMaturity : ℤ

/-- The test of `removeForReorg` on the inputs of a transaction, up to the first that is gone or
immature. -/
def spendsImmature (V : ReorgView) : List CTxIn → Result Bool
  | [] => .ok false
  | txin :: vin =>
    if txin.prevout.hash ∈ p.mapTx then spendsImmature V vin
    else
      let coin := V.accessCoin txin.prevout
      if p.nCheckFrequency ≠ 0 ∧ coin.isSpent then .error (.assertion "!coin.IsSpent()")
      else if coin.isSpent || ((coin.fCoinBase || coin.fCoinStake) &&
          decide (V.nMemPoolHeight - coin.nHeight < V.nCoinbaseMaturity)) then .ok true
      else spendsImmature V vin

/-- The test of `removeForReorg` on an entry. -/
def goesInReorg (V : ReorgView) (e : PoolEntry D) : Result Bool :=
  if !V.checkFinalTx e.tx then .ok true
  else if e.spendsCoinbaseOrCoinstake then p.spendsImmature V e.tx.vin
  else .ok false

/-- `removeForReorg`. -/
def removeForReorg (V : ReorgView) : Result (TxMemPool D) :=
  (p.mapTx.entries.foldlM (fun (txToRemove : Finset Uint256) it =>
    (p.goesInReorg V it.2).map fun goes => if goes then insert it.1 txToRemove else txToRemove)
    ∅).bind p.removeWithDescendants

/-- `removeWithAnchor`. -/
def removeWithAnchor (invalidRoot : Uint256) : Result (TxMemPool D) :=
  ((p.mapTx.entries.map (·.2.tx)).filter fun tx =>
    tx.isShieldedTx && tx.shieldedSpends.any fun sd => sd.anchor = invalidRoot).foldlM
      (fun p tx => p.removeRecursive E tx) p

/-- A transaction that conflicts with `tx` goes, with its descendants and its deltas. -/
def removeConflict (tx : CTransaction) (found : Option CTransaction) : Result (TxMemPool D) :=
  match found with
  | none => .ok p
  | some txConflict =>
    if txConflict.getHash E.toHashing ≠ tx.getHash E.toHashing then
      (p.removeRecursive E txConflict).map fun p =>
        p.clearPrioritisation (txConflict.getHash E.toHashing)
    else .ok p

/-- `removeConflicts`. -/
def removeConflicts (tx : CTransaction) : Result (TxMemPool D) :=
  (tx.prevouts.foldlM (fun (p : TxMemPool D) o =>
    p.removeConflict E tx (p.mapNextTx.lookup o)) p).bind fun p =>
      tx.poolNullifiers.foldlM (fun (p : TxMemPool D) nf =>
        p.removeConflict E tx (p.mapSaplingNullifiers.lookup nf)) p

/-- The body of the loop of `removeForBlock`. -/
def removeBlockTx (tx : CTransaction) : Result (TxMemPool D) :=
  let hash := tx.getHash E.toHashing
  (if hash ∈ p.mapTx then p.removeStaged {hash} true else .ok p).bind fun p =>
    (p.removeConflicts E tx).map fun p => p.clearPrioritisation hash

/-- `removeForBlock`. -/
def removeForBlock (vtx : List CTransaction) : Result (TxMemPool D) :=
  vtx.foldlM (fun p tx => p.removeBlockTx E tx) p

/-- `_clear`. -/
def clear : TxMemPool D := { p with mapLinks := ∅, mapTx := ∅, mapNextTx := ∅ }

/-- `Expire`. -/
def expire (time : ℤ) : Result (TxMemPool D) :=
  p.removeWithDescendants (p.ids.filter fun it =>
    (p.mapTx.lookup it).any fun e => decide (e.nTime < time))

/-- The error of `TrimToSize` where there is nothing left to remove: it reads the first of no
entries. -/
def trimmedEmpty : Failure := .outOfBounds "*mapTx.get<descendant_score>().begin()"

/-- The loop of `TrimToSize`, for at most `n` turns. -/
def trimLoop (sizelimit : ℕ) : ℕ → TxMemPool D → Result (TxMemPool D)
  | n, p =>
    if E.dynamicMemoryUsage p ≤ sizelimit then .ok p
    else match E.lowestScore p, n with
      | none, _ => .error trimmedEmpty
      | some _, 0 => .error (.error "TrimToSize does not return")
      | some it, n + 1 => (p.removeWithDescendants {it}).bind (trimLoop sizelimit n)

/-- `TrimToSize`. Every turn removes an entry. -/
def trimToSize (sizelimit : ℕ) : Result (TxMemPool D) :=
  trimLoop E sizelimit p.mapTx.keys.length p

/-! ## Priorities and reorganisations -/

/-- `PrioritiseTransaction`. -/
def prioritiseTransaction (hash : Uint256) (dPriorityDelta : D) (nFeeDelta : Int64) :
    Result (TxMemPool D) :=
  let old := (p.mapDeltas.lookup hash).getD (E.ops.ofInt 0, 0)
  let deltas := (E.ops.add old.1 dPriorityDelta, old.2 + nFeeDelta)
  let p := { p with mapDeltas := p.mapDeltas.insert hash deltas }
  if hash ∈ p.mapTx then
    (p.modify hash fun e => .ok (e.updateFeeDelta deltas.2)).bind fun p =>
      (p.ancestorsOf hash).bind fun setAncestors =>
        p.modifyAll setAncestors fun ancestor => ancestor.updateDescendantState 0 nFeeDelta 0
  else .ok p

/-- `cacheMap`: the descendants found for entries that were updated. -/
abbrev CacheMap := AList fun _ : Uint256 => Finset Uint256

/-- The body of the loop of `UpdateForDescendants`: where the descendants of a child are known,
they are taken over and the child is not visited. -/
def visitDescendant (cachedDescendants : CacheMap) (cit : Uint256)
    (setAllDescendants : Finset Uint256) : Result (Finset Uint256 × Finset Uint256) :=
  visitKnown p.getMemPoolChildren cachedDescendants.lookup cit setAllDescendants

/-- What the second loop of `UpdateForDescendants` carries. -/
structure DescendantSums where
  modifySize : ℤ
  modifyFee : Int64
  modifyCount : ℤ
  descendants : Finset Uint256

/-- The second loop of `UpdateForDescendants`, over what was found: the entries outside the block
are counted and remembered, and `updated` enters their ancestor state. -/
def updateDescendant (updated : PoolEntry D) (setExclude : Finset Uint256)
    (s : DescendantSums × TxMemPool D) (cit : Uint256) : Result (DescendantSums × TxMemPool D) :=
  if cit ∈ setExclude then .ok s
  else (s.2.entry cit).bind fun e =>
    (s.2.modify cit fun d => d.updateAncestorState updated.nTxSize updated.modifiedFee 1
      updated.sigOpCount).map fun p =>
        (⟨s.1.modifySize + e.nTxSize, s.1.modifyFee + e.modifiedFee, s.1.modifyCount + 1,
          insert cit s.1.descendants⟩, p)

/-- `UpdateForDescendants`. The cache gets an entry where there is something to remember. -/
def updateForDescendants (updateIt : Uint256) (cachedDescendants : CacheMap)
    (setExclude : Finset Uint256) : Result (TxMemPool D × CacheMap) :=
  (p.getMemPoolChildren updateIt).bind fun stageEntries =>
    (drain (p.visitDescendant cachedDescendants)
      (.error "UpdateForDescendants does not return") p.mapTx.keys.length stageEntries ∅).bind
      fun setAllDescendants => (p.entry updateIt).bind fun updated =>
        ((inOrder setAllDescendants).foldlM (updateDescendant updated setExclude)
          (⟨0, 0, 0, ∅⟩, p)).bind fun s =>
          (s.2.modify updateIt fun e => e.updateDescendantState s.1.modifySize s.1.modifyFee
            s.1.modifyCount).map fun p =>
              (p, if s.1.descendants = ∅ then cachedDescendants
                else cachedDescendants.insert updateIt
                  ((cachedDescendants.lookup updateIt).getD ∅ ∪ s.1.descendants))

/-- The loop of `UpdateTransactionsFromBlock` over what spends an output of a transaction: the
transactions met and the pool. -/
def linkChild (hash : Uint256) (setAlreadyIncluded : Finset Uint256)
    (s : Finset Uint256 × TxMemPool D) (child : CTransaction) :
    Result (Finset Uint256 × TxMemPool D) :=
  let childHash := child.getHash E.toHashing
  if childHash ∉ s.2.mapTx then .error (.assertion "childIter != mapTx.end()")
  else if childHash ∉ s.1 ∧ childHash ∉ setAlreadyIncluded then
    .ok (insert childHash s.1, (s.2.updateChild hash childHash true).updateParent childHash hash true)
  else .ok (insert childHash s.1, s.2)

/-- The body of the loop of `UpdateTransactionsFromBlock`. -/
def updateFromBlock (setAlreadyIncluded : Finset Uint256) (s : TxMemPool D × CacheMap)
    (hash : Uint256) : Result (TxMemPool D × CacheMap) :=
  if hash ∉ s.1.mapTx then .ok s
  else
    let spenders := (s.1.mapNextTx.entries.filter fun e => e.1.hash = hash).map (·.2)
    (spenders.foldlM (linkChild E hash setAlreadyIncluded) (∅, s.1)).bind fun linked =>
      linked.2.updateForDescendants hash s.2 setAlreadyIncluded

/-- `UpdateTransactionsFromBlock`. -/
def updateTransactionsFromBlock (vHashesToUpdate : List Uint256) : Result (TxMemPool D) :=
  (vHashesToUpdate.reverse.foldlM (updateFromBlock E vHashesToUpdate.toFinset) (p, ∅)).map (·.1)

end TxMemPool

/-! ## Calls -/

/-- The calls by which a pool changes. -/
inductive PoolCall (D : Type)
  | addUnchecked (e : CTxMemPoolEntry D) (nTime : ℤ) (spendsCoinbaseOrCoinstake : Bool)
  | removeRecursive (tx : CTransaction)
  | removeForReorg (view : TxMemPool.ReorgView)
  | removeWithAnchor (invalidRoot : Uint256)
  | removeConflicts (tx : CTransaction)
  | removeForBlock (vtx : List CTransaction)
  | expire (time : ℤ)
  | trimToSize (sizelimit : ℕ)
  | clear
  | prioritiseTransaction (hash : Uint256) (dPriorityDelta : D) (nFeeDelta : Int64)
  | updateTransactionsFromBlock (vHashesToUpdate : List Uint256)

/-- A call. -/
def TxMemPool.step {D : Type} (E : PoolEnv D) (p : TxMemPool D) : PoolCall D → Result (TxMemPool D)
  | .addUnchecked e nTime spends => p.addUnchecked E (.ofEntry e nTime spends)
  | .removeRecursive tx => p.removeRecursive E tx
  | .removeForReorg view => p.removeForReorg view
  | .removeWithAnchor invalidRoot => p.removeWithAnchor E invalidRoot
  | .removeConflicts tx => p.removeConflicts E tx
  | .removeForBlock vtx => p.removeForBlock E vtx
  | .expire time => p.expire time
  | .trimToSize sizelimit => p.trimToSize E sizelimit
  | .clear => .ok p.clear
  | .prioritiseTransaction hash dPriorityDelta nFeeDelta =>
    p.prioritiseTransaction E hash dPriorityDelta nFeeDelta
  | .updateTransactionsFromBlock vHashesToUpdate => p.updateTransactionsFromBlock E vHashesToUpdate

end Passion
