import Passion.Validation.CheckBlock

/-!
# Accepting a block

`GetPrevIndex`, `AcceptBlockHeader`, `AcceptBlock` and `ProcessNewBlock` of `validation.cpp`. What
they have changed stays when they fail. A block is accepted in two stages: up to `AddToBlockIndex`,
which creates the entry, and from there on. The functions that reorganize the chain,
`ReconsiderBlock` and `ActivateBestChain`, are parameters. Left out: disk failures.
-/

namespace Passion

open Persistent

/-- A function over the node. -/
abbrev NodeM := Persistent Failure NodeState

/-- What a node does to its active chain. Neither function takes an entry out of the index. -/
structure ChainOps where
  /-- `ReconsiderBlock`, and whether the state it is given stays valid. -/
  reconsiderBlock : CBlockIndex → NodeState → Bool × NodeState
  /-- `ActivateBestChain`, with the block that was just received. -/
  activateBestChain : Option CBlock → NodeM Unit
  reconsider_keeps : ∀ pindex N hash, hash ∈ N.mapBlockIndex →
    hash ∈ (reconsiderBlock pindex N).2.mapBlockIndex
  activate_keeps : ∀ pblock N hash, hash ∈ N.mapBlockIndex →
    hash ∈ (exec (activateBestChain pblock) N).2.mapBlockIndex

/-- A node that never reorganizes its chain. -/
def ChainOps.idle : ChainOps where
  reconsiderBlock := fun _ N => (false, N)
  activateBestChain := fun _ => pure ()
  reconsider_keeps := fun _ _ _ h => h
  activate_keeps := fun _ _ _ h => h

/-- A call whose result is not looked at. -/
def ignoreResult (m : NodeM Unit) : NodeM Unit := fun N =>
  match exec m N with
  | (.ok (), N') => (.ok (), N')
  | (.error e, N') => (if e.isReturn then .ok () else .error e, N')

variable (ops : ChainOps) (E : Env) (params : CChainParams) (literal : UInt64)

/-! ## Up to the index entry -/

/-- The branch of `GetPrevIndex` for a parent that is marked as invalid: an exact match from
the checkpoints is reconsidered. -/
def reconsiderPrev (block : CBlock) (pindexPrev : CBlockIndex) : NodeM (Option CBlockIndex) :=
  state >>= fun N =>
  if N.checkpointsCheckBlock params pindexPrev.nHeight block.hashPrevBlock true then
    let (fValid, N') := ops.reconsiderBlock pindexPrev N
    setState N' >>= fun _ =>
    if fValid then
      ignoreResult (ops.activateBestChain none) >>= fun _ => state >>= fun N'' =>
      pure (N''.mapBlockIndex.lookup block.hashPrevBlock)
    else ofResult (dos 100 REJECT_INVALID "bad-prevblk")
  else ofResult (dos 100 REJECT_INVALID "bad-prevblk")

/-- `GetPrevIndex`. -/
def getPrevIndex (block : CBlock) : NodeM (Option CBlockIndex) :=
  if block.getHash E.toHashing = params.consensus.hashGenesisBlock then pure none
  else state >>= fun N =>
    match N.mapBlockIndex.lookup block.hashPrevBlock with
    | none => ofResult (dos 0 0 "prevblk-not-found")
    | some pindexPrev =>
      if pindexPrev.nStatus.failed then reconsiderPrev ops params block pindexPrev
      else pure (some pindexPrev)

/-- `CheckWork` as `AcceptBlock` calls it. -/
def checkWorkOf (N : NodeState) (block : CBlock) (pindexPrev : Option CBlockIndex) : Result Unit :=
  if block.getHash E.toHashing = params.consensus.hashGenesisBlock then .ok ()
  else (checkWork E params N block pindexPrev).bind fun fine =>
    if fine then .ok () else .error (.error "incorrect proof of work")

/-- `CheckProofOfStake` as `AcceptBlock` calls it. -/
def checkStakeOf (N : NodeState) (block : CBlock) (pindexPrev : Option CBlockIndex) : Result Unit :=
  if !block.isProofOfStake then .ok ()
  else match pindexPrev with
    | none => .error (.outOfBounds "pindexPrev->nHeight")
    | some pindexPrev =>
      match checkProofOfStake E params N block pindexPrev with
      | .error (.error _) => dos 100 0 ""
      | r => r

/-- The first part of `AcceptBlock`: the parent, the work and the stake. -/
def acceptChecks (block : CBlock) : NodeM (Option CBlockIndex) :=
  getPrevIndex ops E params block >>= fun pindexPrev =>
  state >>= fun N =>
  ofResult (checkWorkOf E params N block pindexPrev) >>= fun _ =>
  ofResult (checkStakeOf E params N block pindexPrev) >>= fun _ =>
  pure pindexPrev

/-- `AcceptBlockHeader` up to `AddToBlockIndex`: the entry, if the block has one already. -/
def acceptHeaderChecks (block : CBlock) (pindexPrev : Option CBlockIndex) :
    NodeM (Option CBlockIndex) :=
  state >>= fun N =>
  match N.mapBlockIndex.lookup (block.getHash E.toHashing) with
  | some pindex =>
    if pindex.nStatus.failed then ofResult (dos 0 0 "duplicate") else pure (some pindex)
  | none =>
    (if pindexPrev.isNone then getPrevIndex ops E params block else pure pindexPrev) >>=
      fun pindexPrev => state >>= fun N =>
      ofResult (contextualCheckBlockHeader E params N block pindexPrev) >>= fun _ => pure none

/-- `AddToBlockIndex`, on the node. -/
def addBlockIndex (block : CBlock) : NodeM CBlockIndex :=
  state >>= fun N =>
  ofResult (addToBlockIndex E.toHashing params literal N.tree block) >>= fun (tree, pindex) =>
  setState { N with tree := tree } >>= fun _ => pure pindex

/-- `AcceptBlockHeader`. -/
def acceptBlockHeader (block : CBlock) (pindexPrev : Option CBlockIndex) : NodeM CBlockIndex :=
  acceptHeaderChecks ops E params block pindexPrev >>= fun known =>
  match known with
  | some pindex => pure pindex
  | none => addBlockIndex E params literal block

/-- The part of `AcceptBlock` that ends with the index entry: the parent and the entry. -/
def acceptIndex (block : CBlock) : NodeM (Option CBlockIndex × CBlockIndex) :=
  acceptChecks ops E params block >>= fun pindexPrev =>
  acceptBlockHeader ops E params literal block pindexPrev >>= fun pindex =>
  pure (pindexPrev, pindex)

/-! ## The inputs of the coinstake -/

/-- Whether a transaction of the block other than a coinstake spends one of the inputs. -/
def stakeDoubleSpent (block : CBlock) (inputs : List CTxIn) : Bool :=
  block.vtx.any fun tx => !tx.isCoinStake &&
    tx.vin.any fun txin => inputs.any fun stakeIn => stakeIn.prevout == txin.prevout

/-- Whether a block of the fork spends one of the inputs. -/
def spendsAny (bl : CBlock) (inputs : List CTxIn) : Bool :=
  bl.vtx.any fun tx => tx.vin.any fun txin => inputs.any fun stakeIn =>
    stakeIn.prevout == txin.prevout

/-- The walk of `AcceptBlock` from the parent back along the fork, over the parent and its
ancestors, up to the entry at which the fork leaves the active chain. -/
def forkWalk (N : NodeState) (inputs : List CTxIn) : ℤ → List CBlockIndex → Result CBlockIndex
  | _, [] => .error (.outOfBounds "prev->pprev")
  | readBlock, prev :: ancestors =>
    match N.readBlockFromDisk params E.toHashing prev with
    | none => .error (.error "previous block not on disk")
    | some bl =>
      if N.chainContains prev then .ok prev
      else if readBlock + 1 = N.nMaxReorgDepth then
        .error (.error "forked chain longer than maximum reorg limit")
      else if spendsAny bl inputs then dos 100 0 ""
      else forkWalk N inputs (readBlock + 1) ancestors

/-- Whether the parent is not the tip of the active chain. -/
def isBlockFromFork (N : NodeState) (pindexPrev : Option CBlockIndex) : Bool :=
  pindexPrev.any fun p => N.chainActive.getLast? != some p.hashBlock

/-- The walk along the fork, where there is one. -/
def checkFork (N : NodeState) (inputs : List CTxIn) (pindexPrev : Option CBlockIndex) :
    Result Unit :=
  match pindexPrev with
  | none => .ok ()
  | some prev =>
    if N.chainActive.getLast? != some prev.hashBlock then
      (forkWalk E params N inputs 0 (prev.ancestors N.mapBlockIndex)).map fun _ => ()
    else .ok ()

/-- The last check of `AcceptBlock`: a coinstake input that is not unspent at the tip is
refused, unless the block is from a fork. -/
def checkStakeCoins (N : NodeState) (inputs : List CTxIn) (pindexPrev : Option CBlockIndex) :
    Result Unit :=
  inputs.forM fun txin =>
    match (CoinsView.accessCoin txin.prevout).run (CCoinsViewCache.onBase N.pcoinsTip.toView) with
    | .error e => .error e
    | .ok (coin, _) =>
      if coin.isSpent && !isBlockFromFork N pindexPrev then
        .error (.error "coin stake inputs not-available/already-spent on main chain")
      else .ok ()

/-- What `AcceptBlock` checks of the inputs of the coinstake. -/
def checkStakeInputs (N : NodeState) (block : CBlock) (pindexPrev : Option CBlockIndex) :
    Result Unit :=
  match block.vtx with
  | _ :: stakeTxIn :: _ =>
    if stakeDoubleSpent block stakeTxIn.vin then
      .error (.error "double spent coinstake input inside block")
    else (checkFork E params N stakeTxIn.vin pindexPrev).bind fun _ =>
      checkStakeCoins N stakeTxIn.vin pindexPrev
  | _ => .error (.outOfBounds "block.vtx[1]")

/-! ## Storing the block -/

/-- What is read back of a block that was written: the flag is not written, and the signature
only for a proof-of-stake block. -/
def CBlock.written (block : CBlock) : CBlock :=
  { block with
    fChecked := false
    vchBlockSig := if block.isProofOfStake then block.vchBlockSig else [] }

/-- The block is written to its file and its data taken note of. -/
def storeBlock (block : CBlock) (pindex : CBlockIndex) : NodeM CBlockIndex :=
  state >>= fun N =>
  let I := N.index.receivedBlockTransactions block pindex.hashBlock
  setState { N.setIndex I with
    blockFiles := N.blockFiles.insert pindex.hashBlock block.written } >>= fun _ =>
  pure ((I.mapBlockIndex.lookup pindex.hashBlock).getD pindex)

/-- The entry is marked as failed if the verdict is about the block itself. -/
def markFailed (pindex : CBlockIndex) (e : Failure) : NodeM Unit :=
  match e with
  | .invalid v =>
    if v.corruptionPossible then pure ()
    else state >>= fun N =>
      let pindex := { pindex with nStatus := { pindex.nStatus with failedValid := true } }
      setState { N with
        tree := { N.tree with
          mapBlockIndex := N.mapBlockIndex.insert pindex.hashBlock pindex } }
  | _ => pure ()

/-- `CheckBlock` and `ContextualCheckBlock` in `AcceptBlock`. -/
def checkWholeBlock (block : CBlock) (pindex : CBlockIndex) : NodeM Unit :=
  state >>= fun N =>
  match (checkBlock E params N block true true true).bind fun _ =>
      contextualCheckBlock E params N block (pindex.prev N.mapBlockIndex) with
  | .ok () => pure ()
  | .error e => markFailed pindex e >>= fun _ => ofResult (.error e)

/-- The part of `AcceptBlock` after the index entry: the entry, and whether the block was
stored as new data. -/
def acceptData (block : CBlock) (pindexPrev : Option CBlockIndex) (pindex : CBlockIndex) :
    NodeM (CBlockIndex × Bool) :=
  if pindex.nStatus.haveData then pure (pindex, false)
  else checkWholeBlock E params block pindex >>= fun _ =>
    state >>= fun N =>
    ofResult (if block.isProofOfStake then checkStakeInputs E params N block pindexPrev
      else .ok ()) >>= fun _ =>
    storeBlock block pindex >>= fun pindex => pure (pindex, true)

/-- `AcceptBlock`. -/
def acceptBlock (block : CBlock) : NodeM (CBlockIndex × Bool) :=
  acceptIndex ops E params literal block >>= fun p => acceptData E params block p.1 p.2

/-- `ProcessNewBlock`. -/
def processNewBlock (block : CBlock) : NodeM Unit :=
  state >>= fun N =>
  ofResult (checkBlock E params N block true true true) >>= fun block =>
  acceptBlock ops E params literal block >>= fun _ =>
  ops.activateBestChain (some block)

/-! ## What success means -/

section Success

variable {ops E params literal} {N N₁ N₂ N' : NodeState} {block : CBlock}

theorem ignoreResult_state {m : NodeM Unit} (h : exec (ignoreResult m) N = (.ok (), N')) :
    N' = (exec m N).2 := by
  unfold exec ignoreResult at h
  rcases hm : exec m N with ⟨r, M⟩
  rw [hm] at h
  cases r with
  | ok u => exact (Prod.mk.inj h).2.symm
  | error e => exact (Prod.mk.inj h).2.symm

variable {pprev : Option CBlockIndex}

/-- A parent that was reconsidered is an entry of the index still. -/
theorem reconsiderPrev_eq_ok {pindexPrev : CBlockIndex}
    (hin : block.hashPrevBlock ∈ N.mapBlockIndex)
    (h : exec (reconsiderPrev ops params block pindexPrev) N = (.ok pprev, N')) :
    N' = (exec (ops.activateBestChain none) (ops.reconsiderBlock pindexPrev N).2).2 ∧
      pprev = N'.mapBlockIndex.lookup block.hashPrevBlock ∧ pprev.isSome = true := by
  unfold reconsiderPrev at h
  rw [exec_state_bind] at h
  split at h
  · rw [exec_setState_bind] at h
    split at h
    · obtain ⟨_, N'', hact, h⟩ := exec_bind_eq_ok.mp h
      cases h
      have hN'' := ignoreResult_state hact
      refine ⟨hN'', rfl, ?_⟩
      rw [AList.lookup_isSome, hN'']
      exact ops.activate_keeps _ _ _ (ops.reconsider_keeps _ _ _ hin)
    · cases h
  · cases h

/-- The state `GetPrevIndex` may leave: the one it found, or one with a reconsidered parent. -/
def Reconsidered (ops : ChainOps) (N N₁ : NodeState) : Prop :=
  N₁ = N ∨ ∃ pindexPrev,
    N₁ = (exec (ops.activateBestChain none) (ops.reconsiderBlock pindexPrev N).2).2

/-- **What `GetPrevIndex` finds**: nothing for the genesis block, and the entry of the parent
for any other block. -/
theorem getPrevIndex_eq_ok (h : exec (getPrevIndex ops E params block) N = (.ok pprev, N₁)) :
    (block.getHash E = params.consensus.hashGenesisBlock ∧ pprev = none ∧ N₁ = N) ∨
      (Reconsidered ops N N₁ ∧
        pprev = N₁.mapBlockIndex.lookup block.hashPrevBlock ∧ pprev.isSome = true) := by
  unfold getPrevIndex at h
  split at h
  · rename_i hgen
    cases h
    exact .inl ⟨hgen, rfl, rfl⟩
  · rw [exec_state_bind] at h
    cases hl : N.mapBlockIndex.lookup block.hashPrevBlock with
    | none =>
      simp only [hl] at h
      cases h
    | some pindexPrev =>
      simp only [hl] at h
      split at h
      · have hin : block.hashPrevBlock ∈ N.mapBlockIndex := by
          rw [← AList.lookup_isSome, hl]
          rfl
        obtain ⟨hN₁, hprev, hsome⟩ := reconsiderPrev_eq_ok hin h
        exact .inr ⟨.inr ⟨pindexPrev, hN₁⟩, hprev, hsome⟩
      · cases h
        exact .inr ⟨.inl rfl, hl.symm, rfl⟩

/-- Asking for the parent of the genesis block again finds nothing again. -/
theorem exec_getPrevIndex_again
    (h : exec (getPrevIndex ops E params block) N = (.ok none, N₁)) :
    exec (getPrevIndex ops E params block) N₁ = (.ok none, N₁) := by
  rcases getPrevIndex_eq_ok h with ⟨hgen, -, rfl⟩ | ⟨-, -, hsome⟩
  · unfold getPrevIndex
    rw [if_pos hgen]
    rfl
  · cases hsome

/-- **When a block gets as far as `AddToBlockIndex`**: it passes the checks of its parent, its
work and its stake, it has no entry, and its header fits to the parent. -/
structure ReachesIndex (ops : ChainOps) (E : Env) (params : CChainParams) (block : CBlock)
    (N : NodeState) (pindexPrev : Option CBlockIndex) (N₁ : NodeState) : Prop where
  prev : exec (getPrevIndex ops E params block) N = (.ok pindexPrev, N₁)
  work : checkWorkOf E params N₁ block pindexPrev = .ok ()
  stake : checkStakeOf E params N₁ block pindexPrev = .ok ()
  unknown : N₁.mapBlockIndex.lookup (block.getHash E) = none
  header : contextualCheckBlockHeader E params N₁ block pindexPrev = .ok ()

variable {pindexPrev : Option CBlockIndex}

theorem acceptChecks_eq_ok :
    exec (acceptChecks ops E params block) N = (.ok pindexPrev, N₁) ↔
      exec (getPrevIndex ops E params block) N = (.ok pindexPrev, N₁) ∧
        checkWorkOf E params N₁ block pindexPrev = .ok () ∧
        checkStakeOf E params N₁ block pindexPrev = .ok () := by
  unfold acceptChecks
  rw [exec_bind_eq_ok]
  simp only [exec_state_bind, exec_ofResult_bind, exec_pure_eq_ok]
  constructor
  · rintro ⟨_, _, hprev, _, hwork, _, hstake, rfl, rfl⟩
    exact ⟨hprev, hwork, hstake⟩
  · rintro ⟨hprev, hwork, hstake⟩
    exact ⟨pindexPrev, N₁, hprev, (), hwork, (), hstake, rfl, rfl⟩

/-- The checks of the header, from the state in which the parent was found: either the block
has an entry already, or it is the turn of `AddToBlockIndex`. -/
theorem acceptHeaderChecks_eq_ok {pindexPrev known : Option CBlockIndex}
    (hprev : exec (getPrevIndex ops E params block) N = (.ok pindexPrev, N₁)) :
    exec (acceptHeaderChecks ops E params block pindexPrev) N₁ = (.ok known, N₂) ↔
      N₂ = N₁ ∧
        ((∃ pindex, known = some pindex ∧ pindex.nStatus.failed = false ∧
          N₁.mapBlockIndex.lookup (block.getHash E) = some pindex) ∨
        (known = none ∧ N₁.mapBlockIndex.lookup (block.getHash E) = none ∧
          contextualCheckBlockHeader E params N₁ block pindexPrev = .ok ())) := by
  unfold acceptHeaderChecks
  rw [exec_state_bind]
  cases hl : N₁.mapBlockIndex.lookup (block.getHash E) with
  | some pindex =>
    cases hf : pindex.nStatus.failed with
    | true =>
      simp [hf, dos, exec, ofResult]
    | false =>
      simp only [hf]
      constructor
      · intro h
        cases h
        exact ⟨rfl, .inl ⟨pindex, rfl, hf, rfl⟩⟩
      · rintro ⟨rfl, ⟨p, rfl, -, hp⟩ | ⟨-, hno, -⟩⟩
        · cases hp
          rfl
        · cases hno
  | none =>
    -- The parent is looked up once more only where there is none.
    have hagain : exec (if pindexPrev.isNone then getPrevIndex ops E params block
        else pure pindexPrev) N₁ = (.ok pindexPrev, N₁) := by
      cases pindexPrev with
      | none => exact exec_getPrevIndex_again hprev
      | some p => rfl
    rw [exec_bind_of_ok hagain, exec_state_bind, exec_ofResult_bind]
    constructor
    · rintro ⟨_, hhead, h⟩
      cases h
      exact ⟨rfl, .inr ⟨rfl, rfl, hhead⟩⟩
    · rintro ⟨rfl, ⟨p, -, -, hp⟩ | ⟨rfl, -, hhead⟩⟩
      · cases hp
      · exact ⟨(), hhead, rfl⟩

/-- The steps of `ProcessNewBlock` before `AddToBlockIndex`. -/
def beforeIndex (ops : ChainOps) (E : Env) (params : CChainParams) (block : CBlock) :
    NodeM (CBlock × Option CBlockIndex × Option CBlockIndex) :=
  state >>= fun N =>
  ofResult (checkBlock E params N block true true true) >>= fun block =>
  acceptChecks ops E params block >>= fun pindexPrev =>
  acceptHeaderChecks ops E params block pindexPrev >>= fun known =>
  pure (block, pindexPrev, known)

/-- **What the first steps of `ProcessNewBlock` have checked** when `AddToBlockIndex` is next:
`CheckBlock` and all that stands before an index entry. -/
theorem beforeIndex_eq_ok {b : CBlock} :
    exec (beforeIndex ops E params block) N = (.ok (b, pindexPrev, none), N₁) ↔
      checkBlock E params N block true true true = .ok b ∧
        ReachesIndex ops E params b N pindexPrev N₁ := by
  unfold beforeIndex
  rw [exec_state_bind, exec_ofResult_bind]
  simp only [exec_bind_eq_ok, exec_pure_eq_ok]
  constructor
  · rintro ⟨_, hcheck, _, _, hchecks, _, _, hheader, heq, rfl⟩
    cases heq
    obtain ⟨hprev, hwork, hstake⟩ := acceptChecks_eq_ok.mp hchecks
    obtain ⟨rfl, ⟨p, hp, -⟩ | ⟨-, hno, hhead⟩⟩ := (acceptHeaderChecks_eq_ok hprev).mp hheader
    · cases hp
    · exact ⟨hcheck, hprev, hwork, hstake, hno, hhead⟩
  · rintro ⟨hcheck, hprev, hwork, hstake, hno, hhead⟩
    have hheader := (acceptHeaderChecks_eq_ok hprev).mpr ⟨rfl, .inr ⟨rfl, hno, hhead⟩⟩
    exact ⟨b, hcheck, pindexPrev, N₁, acceptChecks_eq_ok.mpr ⟨hprev, hwork, hstake⟩, none, N₁,
      hheader, rfl, rfl⟩

/-- **What a node that has an index entry for the block has checked.** Either the entry was
there, or it is the one that `AddToBlockIndex` made. -/
theorem acceptIndex_eq_ok {pindex : CBlockIndex}
    (h : exec (acceptIndex ops E params literal block) N = (.ok (pindexPrev, pindex), N₂)) :
    ∃ N₁, exec (getPrevIndex ops E params block) N = (.ok pindexPrev, N₁) ∧
      checkStakeOf E params N₁ block pindexPrev = .ok () ∧
      ((N₂ = N₁ ∧ N₁.mapBlockIndex.lookup (block.getHash E) = some pindex) ∨
        (ReachesIndex ops E params block N pindexPrev N₁ ∧
          ∃ tree, addToBlockIndex E params literal N₁.tree block = .ok (tree, pindex) ∧
            N₂ = { N₁ with tree := tree })) := by
  obtain ⟨p, N₁, hchecks, h⟩ := exec_bind_eq_ok.mp h
  obtain ⟨q, M, hheader, h⟩ := exec_bind_eq_ok.mp h
  cases h
  obtain ⟨hprev, hwork, hstake⟩ := acceptChecks_eq_ok.mp hchecks
  obtain ⟨known, M, hknown, hadd⟩ := exec_bind_eq_ok.mp hheader
  refine ⟨N₁, hprev, hstake, ?_⟩
  obtain ⟨rfl, ⟨p, rfl, -, hp⟩ | ⟨rfl, hno, hhead⟩⟩ := (acceptHeaderChecks_eq_ok hprev).mp hknown
  · cases hadd
    exact .inl ⟨rfl, hp⟩
  · refine .inr ⟨⟨hprev, hwork, hstake, hno, hhead⟩, ?_⟩
    unfold addBlockIndex at hadd
    rw [exec_state_bind] at hadd
    obtain ⟨⟨tree, q⟩, htree, hadd⟩ := exec_ofResult_bind.mp hadd
    cases hadd
    exact ⟨tree, htree, rfl⟩

/-- **What a block that was stored as new data has passed**, from the state with its index
entry on. -/
theorem acceptData_eq_ok {pindex q : CBlockIndex}
    (h : exec (acceptData E params block pindexPrev pindex) N₂ = (.ok (q, true), N')) :
    (∃ b, checkBlock E params N₂ block true true true = .ok b) ∧
      contextualCheckBlock E params N₂ block (pindex.prev N₂.mapBlockIndex) = .ok () ∧
      (block.isProofOfStake = true → checkStakeInputs E params N₂ block pindexPrev = .ok ()) ∧
      exec (storeBlock block pindex) N₂ = (.ok q, N') := by
  unfold acceptData at h
  split at h
  · cases h
  · obtain ⟨_, M, hwhole, h⟩ := exec_bind_eq_ok.mp h
    unfold checkWholeBlock at hwhole
    rw [exec_state_bind] at hwhole
    cases hcheck : (checkBlock E params N₂ block true true true).bind fun _ =>
        contextualCheckBlock E params N₂ block (pindex.prev N₂.mapBlockIndex) with
    | error e =>
      simp only [hcheck] at hwhole
      obtain ⟨_, _, -, hfail⟩ := exec_bind_eq_ok.mp hwhole
      cases hfail
    | ok u =>
      simp only [hcheck] at hwhole
      cases hwhole
      obtain ⟨b, hb, hctx⟩ := Except.bind_eq_ok.mp hcheck
      rw [exec_state_bind] at h
      obtain ⟨_, hstake, h⟩ := exec_ofResult_bind.mp h
      obtain ⟨r, M, hstore, h⟩ := exec_bind_eq_ok.mp h
      cases h
      refine ⟨⟨b, hb⟩, hctx, fun hpos => ?_, hstore⟩
      rwa [if_pos hpos] at hstake

end Success

/-! ## Which blocks reach the index

From the height at which proof of stake is active, `AddToBlockIndex` takes the new stake modifier
from the first input of the second transaction, without looking whether there is one. None of the
checks before asks for a proof-of-stake block at such a height.
-/

open Except NodeState

/-- The block has a second transaction, and that has an input. -/
def CBlock.HasStakeInput (block : CBlock) : Prop :=
  ∃ cb tx rest, block.vtx = cb :: tx :: rest ∧ tx.vin ≠ []

/-- In `N₁` the block `b` is at a height with proof of stake, as `AddToBlockIndex` counts. -/
def AtStakeHeight (params : CChainParams) (N₁ : NodeState) (b : CBlock) : Prop :=
  ∃ pprev, N₁.mapBlockIndex.lookup b.hashPrevBlock = some pprev ∧
    params.consensus.networkUpgradeActive (pprev.nHeight + 1) .upgradePos = true

/-- **A block that all checks before `AddToBlockIndex` let through** at a height with proof of
stake, those of its stake left aside. -/
def PassesAtStakeHeight (ops : ChainOps) (E : Env) (params : CChainParams) (N : NodeState)
    (block : CBlock) : Prop :=
  (∃ b, checkBlock E params N block true true true = .ok b) ∧
    ∃ pindexPrev N₁, exec (getPrevIndex ops E params block) N = (.ok pindexPrev, N₁) ∧
      AtStakeHeight params N₁ block ∧
      checkWorkOf E params N₁ block pindexPrev = .ok () ∧
      N₁.mapBlockIndex.lookup (block.getHash E.toHashing) = none ∧
      contextualCheckBlockHeader E params N₁ block pindexPrev = .ok ()

variable {ops E params} {N N₁ : NodeState} {block b : CBlock}

/-- A block without a second input is no proof-of-stake block, so its stake is not checked. -/
theorem checkStakeOf_of_not_hasStakeInput (h : ¬ block.HasStakeInput)
    (pindexPrev : Option CBlockIndex) : checkStakeOf E params N block pindexPrev = .ok () := by
  have hpow : block.isProofOfStake = false := by
    cases hpos : block.isProofOfStake with
    | false => rfl
    | true =>
      obtain ⟨cb, tx, rest, txin, vin, _, _, _, hvtx, -, hvin, -⟩ := CBlock.exists_coinStake hpos
      exact absurd ⟨cb, tx, rest, hvtx, by simp [hvin]⟩ h
  simp [checkStakeOf, hpow]

/-- `CheckBlock` hands on the block it was given, up to the flag. -/
theorem checkBlock_eq_or {fCheckPOW fCheckMerkleRoot fCheckSig : Bool}
    (h : checkBlock E params N block fCheckPOW fCheckMerkleRoot fCheckSig = .ok b) :
    b = block ∨ b = block.setChecked := by
  unfold checkBlock at h
  split at h
  · cases h
    exact .inl rfl
  · obtain ⟨_, -, h⟩ := bind_eq_ok.mp h
    obtain ⟨_, -, h⟩ := bind_eq_ok.mp h
    obtain ⟨_, -, h⟩ := bind_eq_ok.mp h
    obtain ⟨_, -, h⟩ := bind_eq_ok.mp h
    obtain ⟨-, h⟩ := guard_eq_ok.mp h
    obtain ⟨_, -, h⟩ := bind_eq_ok.mp h
    obtain ⟨-, h⟩ := guard_eq_ok.mp h
    split at h
    · cases h
      exact .inr rfl
    · cases h
      exact .inl rfl

/-- Nothing before `AddToBlockIndex` looks at the flag. -/
theorem reachesIndex_setChecked_iff {pindexPrev : Option CBlockIndex} :
    ReachesIndex ops E params block.setChecked N pindexPrev N₁ ↔
      ReachesIndex ops E params block N pindexPrev N₁ :=
  ⟨fun ⟨h1, h2, h3, h4, h5⟩ => ⟨h1, h2, h3, h4, h5⟩,
    fun ⟨h1, h2, h3, h4, h5⟩ => ⟨h1, h2, h3, h4, h5⟩⟩

/-- The checks of `ProcessNewBlock` before `AddToBlockIndex`, on the block it is given. -/
theorem exists_beforeIndex_iff :
    (∃ b pindexPrev, exec (beforeIndex ops E params block) N = (.ok (b, pindexPrev, none), N₁)) ↔
      (∃ b, checkBlock E params N block true true true = .ok b) ∧
        ∃ pindexPrev, ReachesIndex ops E params block N pindexPrev N₁ := by
  constructor
  · rintro ⟨b, pindexPrev, h⟩
    obtain ⟨hcheck, hreach⟩ := beforeIndex_eq_ok.mp h
    refine ⟨⟨b, hcheck⟩, pindexPrev, ?_⟩
    rcases checkBlock_eq_or hcheck with rfl | rfl
    · exact hreach
    · exact reachesIndex_setChecked_iff.mp hreach
  · rintro ⟨⟨b, hcheck⟩, pindexPrev, hreach⟩
    refine ⟨b, pindexPrev, beforeIndex_eq_ok.mpr ⟨hcheck, ?_⟩⟩
    rcases checkBlock_eq_or hcheck with rfl | rfl
    · exact hreach
    · exact reachesIndex_setChecked_iff.mpr hreach

/-- **Which blocks are indexed at a height with proof of stake.** For a block and a state of
the node, every block for which `ProcessNewBlock` executes `AddToBlockIndex` at such a height
has the input that is read there, exactly if the block has it, or one of the checks before
stops the block: none of those asks for a stake. -/
theorem hasStakeInput_at_index_iff :
    (∀ b pindexPrev N₁,
      exec (beforeIndex ops E params block) N = (.ok (b, pindexPrev, none), N₁) →
      AtStakeHeight params N₁ b → b.HasStakeInput) ↔
    (block.HasStakeInput ∨ ¬ PassesAtStakeHeight ops E params N block) := by
  have hsame : ∀ b, checkBlock E params N block true true true = .ok b → b.vtx = block.vtx ∧
      b.hashPrevBlock = block.hashPrevBlock := by
    intro b hb
    rcases checkBlock_eq_or hb with rfl | rfl <;> exact ⟨rfl, rfl⟩
  constructor
  · intro hall
    by_contra hno
    push Not at hno
    obtain ⟨hstake, ⟨b, hb⟩, pindexPrev, N₁, hprev, hheight, hwork, hnew, hhead⟩ := hno
    have hchecked : checkStakeOf E params N₁ block pindexPrev = .ok () :=
      checkStakeOf_of_not_hasStakeInput hstake pindexPrev
    obtain ⟨b', p', hrun⟩ := exists_beforeIndex_iff.mpr
      ⟨⟨b, hb⟩, pindexPrev, hprev, hwork, hchecked, hnew, hhead⟩
    obtain ⟨hvtx, hprevHash⟩ := hsame b' (beforeIndex_eq_ok.mp hrun).1
    have hinput := hall b' p' N₁ hrun (by rwa [AtStakeHeight, hprevHash])
    rw [CBlock.HasStakeInput, hvtx] at hinput
    exact hstake hinput
  · rintro hcond b pindexPrev N₁ hrun hheight
    obtain ⟨hvtx, hprevHash⟩ := hsame b (beforeIndex_eq_ok.mp hrun).1
    rw [CBlock.HasStakeInput, hvtx]
    refine hcond.resolve_right fun hno => hno ?_
    obtain ⟨hcheck, p, hreach⟩ := exists_beforeIndex_iff.mp ⟨b, pindexPrev, hrun⟩
    rw [AtStakeHeight, hprevHash] at hheight
    exact ⟨hcheck, p, N₁, hreach.prev, hheight, hreach.work, hreach.unknown, hreach.header⟩

/-! ## A proof-of-work block at a height with proof of stake -/

/-- A proof-of-work block at height 1001 of the main network, with a coinbase only. -/
def lateWorkBlock : CBlock :=
  NodeState.sampleBlock (NodeState.heightHash 1000) 60060
    [.coinbase [0x02, 0xe9, 0x03] [⟨0, [0x51]⟩]] []

/-- **A block without a second transaction reaches the index at a height with proof of
stake.** -/
theorem indexed_without_stakeInput :
    ¬ ∀ (ops : ChainOps) (E : Env) (params : CChainParams) (N : NodeState) (block b : CBlock)
        (pindexPrev : Option CBlockIndex) (N₁ : NodeState),
      exec (beforeIndex ops E params block) N = (.ok (b, pindexPrev, none), N₁) →
      AtStakeHeight params N₁ b → b.HasStakeInput := by
  intro hall
  have hno : ¬ lateWorkBlock.HasStakeInput := by
    rintro ⟨cb, tx, rest, hvtx, -⟩
    cases hvtx
  have hprev : exec (getPrevIndex .idle sampleEnv mainParams lateWorkBlock) (atHeight 1000) =
        (.ok (some (heightIndex 1000)), atHeight 1000) := by
    unfold getPrevIndex
    rw [if_neg (by decide +kernel), exec_state_bind]
    rw [show (atHeight 1000).mapBlockIndex.lookup lateWorkBlock.hashPrevBlock =
      some (heightIndex 1000) by decide +kernel]
    rfl
  obtain ⟨b', p, hrun⟩ := exists_beforeIndex_iff.mpr ⟨by decide +kernel, _, hprev,
    by decide +kernel, by decide +kernel, by decide +kernel, by decide +kernel⟩
  have hb' := checkBlock_eq_or (beforeIndex_eq_ok.mp hrun).1
  have hheight : AtStakeHeight mainParams (atHeight 1000) lateWorkBlock :=
    ⟨heightIndex 1000, by decide +kernel, by decide +kernel⟩
  rcases hb' with rfl | rfl
  · have hinput := hall _ _ _ _ _ _ _ _ hrun hheight
    exact hno hinput
  · have hinput := hall _ _ _ _ _ _ _ _ hrun hheight
    exact hno hinput

/-- The node then reads a transaction that does not exist. -/
example : (exec (processNewBlock .idle sampleEnv mainParams 0 lateWorkBlock)
    (NodeState.atHeight 1000)).1 = .error (.outOfBounds "block.vtx[1]") := by
  decide +kernel

end Passion
