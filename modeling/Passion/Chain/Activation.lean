import Mathlib.Data.List.DropRight
import Passion.Chain.Accounts

/-!
# Choosing the active chain

`FindMostWorkChain`, `ActivateBestChain`, `InvalidateBlock` and `ReconsiderBlock` of
`validation.cpp`, on the block index. What `ConnectTip` finds of a block is a parameter: it is
connected, or violates a rule. Left out: system errors, shutdown, the mempool, warnings and
notifications. There is no undo data for the genesis block, which therefore cannot be disconnected.
A result is missing where an assertion of the source fails, where the genesis block would have to be
disconnected, and where a loop is not given enough turns.
-/

namespace Passion

/-! ## Marks -/

namespace CBlockIndex

/-- `nStatus |= BLOCK_FAILED_VALID`. -/
def markFailedValid (p : CBlockIndex) : CBlockIndex :=
  { p with nStatus := { p.nStatus with failedValid := true } }

/-- `nStatus |= BLOCK_FAILED_CHILD`. -/
def markFailedChild (p : CBlockIndex) : CBlockIndex :=
  { p with nStatus := { p.nStatus with failedChild := true } }

/-- `nStatus &= ~BLOCK_FAILED_MASK`. -/
def clearFailed (p : CBlockIndex) : CBlockIndex :=
  { p with nStatus := { p.nStatus with failedValid := false, failedChild := false } }

/-- What `ConnectBlock` leaves in the entry of a block; the genesis block has no undo data. -/
def connected (p : CBlockIndex) : CBlockIndex :=
  if p.pprev.isNone then p
  else { p with
    nStatus := { p.nStatus with haveUndo := true }.raise BlockStatus.BLOCK_VALID_SCRIPTS }

/-- `GetAncestor`. -/
def getAncestor (m : BlockMap) (p : CBlockIndex) (height : ℤ) : Option CBlockIndex :=
  (p.ancestors m).find? fun a => a.nHeight = height

end CBlockIndex

open CBlockIndex

namespace ChainIndex

variable (I : ChainIndex)

/-- An entry is changed in place. -/
def modify (hash : Uint256) (f : CBlockIndex → CBlockIndex) : ChainIndex :=
  { I with mapBlockIndex := I.mapBlockIndex.modify hash f }

/-- An entry is taken out of the set of candidates. -/
def eraseCandidate (hash : Uint256) : ChainIndex :=
  { I with setBlockIndexCandidates := I.setBlockIndexCandidates.filter (· ≠ hash) }

/-- `InvalidChainFound`: the best invalid block. -/
def invalidChainFound (pindexNew : CBlockIndex) : ChainIndex :=
  { I with
    pindexBestInvalid :=
      if (I.pindexBestInvalid.bind I.mapBlockIndex.lookup).all fun q =>
          pindexNew.nChainWork.gt q.nChainWork then some pindexNew.hashBlock
      else I.pindexBestInvalid }

/-- `InvalidBlockFound`, for a verdict that is about the block. -/
def invalidBlockFound (pindex : CBlockIndex) : ChainIndex :=
  ((I.modify pindex.hashBlock markFailedValid).eraseCandidate pindex.hashBlock).invalidChainFound
    pindex

/-! ## `FindMostWorkChain` -/

/-- `*setBlockIndexCandidates.rbegin()`. -/
def bestCandidate : Option CBlockIndex :=
  (I.setBlockIndexCandidates.filterMap I.mapBlockIndex.lookup).argmax I.rank

/-- The blocks from an entry back to the active chain. -/
def branch (pindexNew : CBlockIndex) : List CBlockIndex :=
  (pindexNew.ancestors I.mapBlockIndex).takeWhile fun p => !I.chainContains p

/-- The first block of a branch that is failed or has no data; no result if an assertion
fails before. -/
def firstUnusable : List CBlockIndex → Option (Option CBlockIndex)
  | [] => some none
  | pindexTest :: rest =>
    if pindexTest.nChainTx = 0 ∧ pindexTest.nHeight ≠ 0 then none
    else if pindexTest.nStatus.failed || !pindexTest.nStatus.haveData then some (some pindexTest)
    else firstUnusable rest

/-- The candidate and the blocks down to an unusable one are taken out of the set. They are
marked if that block is failed, and wait for their data otherwise. -/
def dropCandidate (pindexNew pindexTest : CBlockIndex) : ChainIndex :=
  let fFailedChain := pindexTest.nStatus.failed
  let failed := (I.branch pindexNew).takeWhile fun p => p.hashBlock ≠ pindexTest.hashBlock
  let I := if fFailedChain then I.invalidChainFound pindexNew else I
  { I with
    mapBlockIndex :=
      if fFailedChain then
        failed.foldl (fun m p => m.modify p.hashBlock markFailedChild) I.mapBlockIndex
      else I.mapBlockIndex
    mapBlocksUnlinked :=
      if fFailedChain then I.mapBlocksUnlinked
      else I.mapBlocksUnlinked ++ failed.filterMap fun p => p.pprev.map fun g => (g, p.hashBlock)
    setBlockIndexCandidates := I.setBlockIndexCandidates.filter fun h =>
      h ∉ failed.map (·.hashBlock) ∧ h ≠ pindexTest.hashBlock }

/-- The loop of `FindMostWorkChain`. Each turn takes the candidate out of the set, or is the
last one. -/
def findMostWorkLoop : ℕ → ChainIndex → Option (ChainIndex × Option CBlockIndex)
  | 0, _ => none
  | n + 1, I =>
    match I.bestCandidate with
    | none => some (I, none)
    | some pindexNew =>
      match firstUnusable (I.branch pindexNew) with
      | none => none
      | some none => some (I, some pindexNew)
      | some (some pindexTest) => findMostWorkLoop n (I.dropCandidate pindexNew pindexTest)

/-- `FindMostWorkChain`. -/
def findMostWorkChain : Option (ChainIndex × Option CBlockIndex) :=
  findMostWorkLoop (I.setBlockIndexCandidates.length + 1) I

/-! ## `ActivateBestChain` -/

/-- `PruneBlockIndexCandidates`. -/
def pruneBlockIndexCandidates : Option ChainIndex :=
  let rest := I.setBlockIndexCandidates.filter fun h =>
    !(I.mapBlockIndex.lookup h).any fun p => I.chainTip.any fun tip => I.workLess p tip
  if rest.isEmpty then none else some { I with setBlockIndexCandidates := rest }

/-- How a row of blocks was connected. -/
inductive Progress
  /-- All of them, and the tip does not have more work than at the start. -/
  | goOn
  /-- The tip has more work than at the start. -/
  | better
  /-- A block is invalid. -/
  | invalid
  deriving DecidableEq

section Connect

variable (connects : Uint256 → Bool)

/-- `ConnectTip`, and whether the block was connected. -/
def connectTip (pindexNew : CBlockIndex) : Option (ChainIndex × Bool) :=
  if pindexNew.pprev ≠ I.chainActive.getLast? then none
  else if connects pindexNew.hashBlock then
    some ({ I.modify pindexNew.hashBlock connected with
      chainActive := I.chainActive ++ [pindexNew.hashBlock] }, true)
  else some (I.invalidBlockFound pindexNew, false)

/-- The loop of `ActivateBestChainStep` over the blocks to connect; `pindexOldTip` is the tip
at the start of the step, and `lowest` the block that is reported as invalid. -/
def connectBlocks (pindexOldTip : Option CBlockIndex) (lowest : CBlockIndex) :
    List CBlockIndex → ChainIndex → Option (ChainIndex × Progress)
  | [], I => some (I, .goOn)
  | pindexConnect :: rest, I =>
    match I.connectTip connects pindexConnect with
    | none => none
    | some (I, false) => some (I.invalidChainFound lowest, .invalid)
    | some (I, true) =>
      match I.pruneBlockIndexCandidates with
      | none => none
      | some I =>
        if pindexOldTip.all fun old => I.chainTip.any fun tip =>
            tip.nChainWork.gt old.nChainWork then some (I, .better)
        else connectBlocks pindexOldTip lowest rest I

/-- The blocks are connected 32 at a time: `fInvalidFound`. -/
def connectChunks (pindexOldTip : Option CBlockIndex) :
    ℕ → List CBlockIndex → ChainIndex → Option (ChainIndex × Bool)
  | 0, _, I => some (I, false)
  | _ + 1, [], I => some (I, false)
  | n + 1, lowest :: rest, I =>
    match connectBlocks connects pindexOldTip lowest ((lowest :: rest).take 32) I with
    | none => none
    | some (I, .goOn) => connectChunks pindexOldTip n ((lowest :: rest).drop 32) I
    | some (I, .better) => some (I, false)
    | some (I, .invalid) => some (I, true)

/-- `chainActive.FindFork(pindex)`. -/
def findFork (pindex : CBlockIndex) : Option CBlockIndex :=
  (pindex.ancestors I.mapBlockIndex).find? fun p => I.chainContains p

/-- The blocks above the fork are disconnected, from the tip down. -/
def disconnectTo (fork : CBlockIndex) : ChainIndex :=
  { I with chainActive := I.chainActive.rdropWhile (· ≠ fork.hashBlock) }

/-- `ActivateBestChainStep`: `fInvalidFound`. -/
def activateBestChainStep (pindexMostWork : CBlockIndex) : Option (ChainIndex × Bool) :=
  let pindexOldTip := I.chainTip
  let toConnect := (I.branch pindexMostWork).reverse
  match I.findFork pindexMostWork with
  | some fork => connectChunks connects pindexOldTip toConnect.length toConnect (I.disconnectTo fork)
  | none =>
    -- Without a common block the genesis block would have to be disconnected.
    if I.chainActive.isEmpty then
      connectChunks connects pindexOldTip toConnect.length toConnect I
    else none

/-- The two nested loops of `ActivateBestChain`: the inner one goes on while the tip is worse
than `startingTip`; the outer one starts it again while `pindexMostWork` is not the tip. -/
def activateLoop : ℕ → Option Uint256 → Bool → Option Uint256 → ChainIndex → Option ChainIndex
  | 0, _, _, _, _ => none
  | n + 1, startingTip, blocksConnected, pindexMostWork, I =>
    match (match pindexMostWork with
      | none => I.findMostWorkChain
      | some hash => some (I, I.mapBlockIndex.lookup hash)) with
    | none => none
    | some (I, none) =>
      if blocksConnected && !I.chainActive.isEmpty then
        activateLoop n I.chainActive.getLast? false none I
      else some I
    | some (I, some mostWork) =>
      if I.chainActive.getLast? = some mostWork.hashBlock then some I
      else match I.activateBestChainStep connects mostWork with
        | none => none
        | some (I, fInvalidFound) =>
          let pindexMostWork := if fInvalidFound then none else some mostWork.hashBlock
          let worse := I.chainTip.all fun tip =>
            (startingTip.bind I.mapBlockIndex.lookup).any fun start => I.workLess tip start
          if worse then activateLoop n startingTip true pindexMostWork I
          else if pindexMostWork = I.chainActive.getLast? then some I
          else activateLoop n I.chainActive.getLast? false pindexMostWork I

/-- **`ActivateBestChain`**, with a number of turns. -/
def activateBestChain (turns : ℕ) : Option ChainIndex :=
  activateLoop connects turns I.chainActive.getLast? false none I

/-- **The active chain is not given up**: none of its blocks gets marked when the best chain is
activated, that is, `ConnectTip` does not fail for a block that was connected before. -/
def KeepsChain (connects : Uint256 → Bool) (turns : ℕ) (I : ChainIndex) : Prop :=
  ∀ J ∈ I.activateBestChain connects turns, ∀ hash ∈ I.chainActive,
    ∀ p ∈ J.mapBlockIndex.lookup hash, p.nStatus.failed = false

instance (connects : Uint256 → Bool) (turns : ℕ) (I : ChainIndex) :
    Decidable (I.KeepsChain connects turns) := by
  unfold KeepsChain
  infer_instance

end Connect

/-! ## `InvalidateBlock` and `ReconsiderBlock` -/

/-- The loop of `InvalidateBlock`: while the block is in the active chain, the tip is marked
and disconnected. The result says whether all could be disconnected. -/
def disconnectInvalid (pindex : CBlockIndex) : ℕ → ChainIndex → ChainIndex × Bool
  | 0, I => (I, !I.chainContains pindex)
  | n + 1, I =>
    if !I.chainContains pindex then (I, true)
    else match I.chainActive.getLast? with
      | none => (I, true)
      | some hashWalk =>
        let I := (I.modify hashWalk markFailedChild).eraseCandidate hashWalk
        -- The genesis block has no undo data.
        if I.chainActive.length ≤ 1 then (I, false)
        else disconnectInvalid pindex n { I with chainActive := I.chainActive.dropLast }

/-- The entries that may be candidates again are put into the set. -/
def readdCandidates : ChainIndex :=
  { I with
    setBlockIndexCandidates := I.mapBlockIndex.keys.foldl (fun set h =>
      if (I.mapBlockIndex.lookup h).any fun p =>
          p.isValid BlockStatus.BLOCK_VALID_TRANSACTIONS && p.nChainTx != 0 &&
            !I.chainTip.any fun tip => I.workLess p tip then set.insert h
      else set) I.setBlockIndexCandidates }

/-- `InvalidateBlock`, and whether it returned `true`. -/
def invalidateBlock (pindex : CBlockIndex) : ChainIndex × Bool :=
  let I := (I.modify pindex.hashBlock markFailedValid).eraseCandidate pindex.hashBlock
  match disconnectInvalid pindex I.chainActive.length I with
  | (I, false) => (I, false)
  | (I, true) => (I.readdCandidates.invalidChainFound pindex, true)

/-- Whether the first loop of `ReconsiderBlock` takes the marks off an entry: one that is not
valid, in the subtree of the block. -/
def reconsidered (pindex p : CBlockIndex) : Bool :=
  !p.isValid BlockStatus.BLOCK_VALID_TRANSACTIONS &&
    (p.getAncestor I.mapBlockIndex pindex.nHeight).any fun a => a.hashBlock = pindex.hashBlock

/-- `ReconsiderBlock`: the marks are taken off the descendants, which may be candidates again,
and then off the ancestors. -/
def reconsiderBlock (pindex : CBlockIndex) : ChainIndex :=
  let cleared := I.mapBlockIndex.mapEntries fun p => if I.reconsidered pindex p then p.clearFailed
    else p
  let above := (pindex.ancestors I.mapBlockIndex).map (·.hashBlock)
  { I with
    mapBlockIndex := cleared.mapEntries fun p => if p.hashBlock ∈ above then p.clearFailed else p
    setBlockIndexCandidates := I.mapBlockIndex.keys.foldl (fun set h =>
      if (I.mapBlockIndex.lookup h).any fun p => I.reconsidered pindex p &&
          p.clearFailed.isValid BlockStatus.BLOCK_VALID_TRANSACTIONS && p.nChainTx != 0 &&
            I.chainTip.any fun tip => I.workLess tip p then set.insert h
      else set) I.setBlockIndexCandidates
    pindexBestInvalid :=
      if (I.pindexBestInvalid.bind I.mapBlockIndex.lookup).any (I.reconsidered pindex) then none
      else I.pindexBestInvalid }

end ChainIndex

end Passion
