import Passion.Sapling.MerkleTree
import Passion.Wallet.Conflicts

/-!
# The witness cache of shielded notes

The part of `sapling/saplingscriptpubkeyman.cpp` that keeps, for each note of the wallet, its
witnesses in the blocks up to the tip, the youngest first: `IncrementNoteWitnesses` and
`DecrementNoteWitnesses`, which `BlockConnected` and `BlockDisconnected` of the wallet call,
`ClearNoteWitnessCache` and `GetSaplingNoteWitnesses`.

A note is found by its outpoint. Left out: nullifiers, amounts, addresses and memos of notes, and
the database.
-/

namespace Passion

/-- `SaplingOutPoint`. -/
structure SaplingOutPoint where
  hash : Uint256
  n : ℕ
  deriving DecidableEq

/-- `SaplingNoteData`, with its place in `mapSaplingNoteData`. -/
structure SaplingNoteData where
  op : SaplingOutPoint
  /-- `IsMyNote`: the note was received, not sent to somebody else. -/
  isMyNote : Bool
  witnesses : List SaplingWitness
  witnessHeight : ℤ
  deriving DecidableEq

/-- `DEFAULT_MAX_REORG_DEPTH`. -/
def DEFAULT_MAX_REORG_DEPTH : ℕ := 100

/-- `WITNESS_CACHE_SIZE`. -/
def WITNESS_CACHE_SIZE : ℕ := DEFAULT_MAX_REORG_DEPTH + 1

namespace SaplingNoteData

variable (E : Env) (indexHeight nWitnessCacheSize : ℤ)

/-- The check that the cache is at least as large as the list of witnesses. -/
def checkCacheSize (nd : SaplingNoteData) : Result Unit :=
  if nWitnessCacheSize < nd.witnesses.length then
    .error (.assertion "nWitnessCacheSize >= (int64_t) nd->witnesses.size()")
  else .ok ()

/-- The body of `CopyPreviousWitnesses`. -/
def copyPreviousWitnesses (nd : SaplingNoteData) : Result SaplingNoteData :=
  if nd.isMyNote && nd.witnessHeight < indexHeight then
    (checkCacheSize nWitnessCacheSize nd).bind fun _ =>
      if nd.witnessHeight = -1 ∨ nd.witnessHeight = indexHeight - 1 then
        let witnesses := nd.witnesses.head?.toList ++ nd.witnesses
        .ok { nd with
          witnesses := if WITNESS_CACHE_SIZE < witnesses.length then witnesses.dropLast
            else witnesses }
      else .error (.assertion
        "(nd->witnessHeight == -1) || (nd->witnessHeight == indexHeight - 1)")
  else .ok nd

/-- The body of `AppendNoteCommitment`. -/
def appendNoteCommitment (note_commitment : Uint256) (nd : SaplingNoteData) :
    Result SaplingNoteData :=
  match nd.witnesses with
  | [] => .ok nd
  | witness :: witnesses =>
    if nd.isMyNote && nd.witnessHeight < indexHeight then
      (checkCacheSize nWitnessCacheSize nd).bind fun _ =>
        (witness.append E note_commitment).map fun witness =>
          { nd with witnesses := witness :: witnesses }
    else .ok nd

/-- `WitnessNoteIfMine`, for each note: it changes the one with the key. Witnesses that the note
has already are cleared. -/
def witnessNoteIfMine (key : SaplingOutPoint) (witness : SaplingWitness) (nd : SaplingNoteData) :
    Result SaplingNoteData :=
  if nd.op = key && nd.isMyNote && nd.witnessHeight < indexHeight then
    let nd := { nd with witnesses := [witness], witnessHeight := indexHeight - 1 }
    (checkCacheSize nWitnessCacheSize nd).map fun _ => nd
  else .ok nd

/-- The body of `UpdateWitnessHeights`. -/
def updateWitnessHeights (nd : SaplingNoteData) : Result SaplingNoteData :=
  if nd.isMyNote && nd.witnessHeight < indexHeight then
    let nd := { nd with witnessHeight := indexHeight }
    (checkCacheSize nWitnessCacheSize nd).map fun _ => nd
  else .ok nd

/-- What `DecrementNoteWitnesses` does to a note that is not witnessed above the block. -/
def popWitness (nd : SaplingNoteData) : Result SaplingNoteData :=
  (checkCacheSize nWitnessCacheSize nd).bind fun _ =>
    if nd.witnessHeight = -1 ∨ nd.witnessHeight = indexHeight then
      .ok { nd with witnesses := nd.witnesses.tail, witnessHeight := indexHeight - 1 }
    else .error (.assertion "(nd->witnessHeight == -1) || (nd->witnessHeight == indexHeight)")

/-- The body of `DecrementNoteWitnesses` over the notes. -/
def decrementNoteWitnesses (nd : SaplingNoteData) : Result SaplingNoteData :=
  if nd.isMyNote then
    (if nd.witnessHeight ≤ indexHeight then popWitness indexHeight nWitnessCacheSize nd
      else .ok nd).bind fun nd =>
        if nd.witnessHeight < indexHeight ∧ nWitnessCacheSize - 1 < nd.witnesses.length then
          .error (.assertion "(nWitnessCacheSize - 1) >= (int64_t) nd->witnesses.size()")
        else .ok nd
  else .ok nd

/-- The note without its witnesses. -/
def clear (nd : SaplingNoteData) : SaplingNoteData :=
  { nd with witnesses := [], witnessHeight := -1 }

end SaplingNoteData

/-- The notes of the wallet and `nWitnessCacheSize`. -/
structure NoteCache where
  notes : List SaplingNoteData
  nWitnessCacheSize : ℤ

/-- The shielded outputs of the transactions of a block, with their outpoints. -/
def shieldedOutputs (H : Hashing) (vtx : List CTransaction) : List (SaplingOutPoint × Uint256) :=
  vtx.flatMap fun tx =>
    if tx.isShieldedTx then
      tx.shieldedOutputs.zipIdx.map fun e => (⟨tx.getHash H, e.2⟩, e.1.cmu)
    else []

namespace NoteCache

variable (E : Env) (cache : NoteCache)

/-- The loop of `IncrementNoteWitnesses` over the outputs of the block: the commitment is
appended to the tree and to the youngest witnesses, and its own note is witnessed. -/
def incrementOutput (chainHeight nWitnessCacheSize : ℤ)
    (s : SaplingMerkleTree × List SaplingNoteData) (output : SaplingOutPoint × Uint256) :
    Result (SaplingMerkleTree × List SaplingNoteData) :=
  (s.1.append E output.2).bind fun saplingTree =>
    (s.2.mapM (SaplingNoteData.appendNoteCommitment E chainHeight nWitnessCacheSize
      output.2)).bind fun notes =>
        (notes.mapM (SaplingNoteData.witnessNoteIfMine chainHeight nWitnessCacheSize output.1
          saplingTree.witness)).map fun notes => (saplingTree, notes)

/-- `IncrementNoteWitnesses`. -/
def incrementNoteWitnesses (chainHeight : ℤ) (vtx : List CTransaction)
    (saplingTree : SaplingMerkleTree) : Result NoteCache :=
  (cache.notes.mapM (SaplingNoteData.copyPreviousWitnesses chainHeight
    cache.nWitnessCacheSize)).bind fun notes =>
    let nWitnessCacheSize :=
      if cache.nWitnessCacheSize < WITNESS_CACHE_SIZE then cache.nWitnessCacheSize + 1
      else cache.nWitnessCacheSize
    ((shieldedOutputs E.toHashing vtx).foldlM (incrementOutput E chainHeight nWitnessCacheSize)
      (saplingTree, notes)).bind fun s =>
        (s.2.mapM (SaplingNoteData.updateWitnessHeights chainHeight nWitnessCacheSize)).map
          fun notes => ⟨notes, nWitnessCacheSize⟩

/-- `DecrementNoteWitnesses`. On the regression-test network the last check throws. -/
def decrementNoteWitnesses (params : CChainParams) (nChainHeight : ℤ) : Result NoteCache :=
  (cache.notes.mapM (SaplingNoteData.decrementNoteWitnesses nChainHeight
    cache.nWitnessCacheSize)).bind fun notes =>
    let nWitnessCacheSize := cache.nWitnessCacheSize - 1
    if nWitnessCacheSize ≤ 0 then
      if params.strNetworkID = .regtest then .error (.exception "nWitnessCacheSize > 0")
      else .error (.assertion "nWitnessCacheSize > 0")
    else .ok ⟨notes, nWitnessCacheSize⟩

/-- `ClearNoteWitnessCache`. -/
def clearNoteWitnessCache : NoteCache := ⟨cache.notes.map SaplingNoteData.clear, 0⟩

/-- A transaction with the note enters the wallet. -/
def addNote (op : SaplingOutPoint) (isMyNote : Bool) : NoteCache :=
  if cache.notes.any (·.op = op) then cache
  else { cache with notes := ⟨op, isMyNote, [], -1⟩ :: cache.notes }

/-- The body of the loop of `GetSaplingNoteWitnesses`: the witnesses and the anchor so far. -/
def getSaplingNoteWitness (s : List (Option SaplingWitness) × Option Uint256)
    (op : SaplingOutPoint) : Result (List (Option SaplingWitness) × Option Uint256) :=
  match (cache.notes.find? (·.op = op)).bind (·.witnesses.head?) with
  | none => .ok (s.1 ++ [none], s.2)
  | some witness =>
    match s.2 with
    | none => .ok (s.1 ++ [some witness], some (witness.root E))
    | some rt =>
      if rt = witness.root E then .ok (s.1 ++ [some witness], some rt)
      else .error (.assertion "*rt == witnesses[i]->root()")

/-- `GetSaplingNoteWitnesses`: a witness for each note that has one, and their anchor. -/
def getSaplingNoteWitnesses (ops : List SaplingOutPoint) :
    Result (List (Option SaplingWitness) × Option Uint256) :=
  ops.foldlM (cache.getSaplingNoteWitness E) ([], none)

end NoteCache

/-! ## Following a chain -/

/-- The shielded outputs of a chain, in order. -/
def chainOutputs (H : Hashing) (chain : List ChainBlock) : List (SaplingOutPoint × Uint256) :=
  chain.flatMap fun b => shieldedOutputs H b.vtx

/-- The active chain, and the witness cache of a wallet that is told about it. -/
structure NoteView where
  chain : List ChainBlock
  cache : NoteCache

/-- What happens to the wallet. -/
inductive NoteCall
  /-- `BlockConnected`, once the notes of the block are in the wallet. -/
  | connected (b : ChainBlock)
  /-- `BlockDisconnected` for the last block of the chain. -/
  | disconnected
  | added (op : SaplingOutPoint) (isMyNote : Bool)
  | cleared

/-- A call. The tree of the block before a connected one is that of `pcoinsTip`. -/
def NoteView.step (E : Env) (params : CChainParams) (s : NoteView) : NoteCall → Result NoteView
  | .connected b =>
    (SaplingMerkleTree.empty.appendAll E
      ((chainOutputs E.toHashing s.chain).map Prod.snd)).bind fun oldSaplingTree =>
        (s.cache.incrementNoteWitnesses E s.chain.length b.vtx oldSaplingTree).map
          fun cache => ⟨s.chain ++ [b], cache⟩
  | .disconnected =>
    if params.consensus.networkUpgradeActive (s.chain.length - 1) .upgradeV5_0 then
      (s.cache.decrementNoteWitnesses params (s.chain.length - 1)).map
        fun cache => ⟨s.chain.dropLast, cache⟩
    else .ok ⟨s.chain.dropLast, s.cache⟩
  | .added op isMyNote => .ok ⟨s.chain, s.cache.addNote op isMyNote⟩
  | .cleared => .ok ⟨s.chain, s.cache.clearNoteWitnessCache⟩

/-! ## The size of the witness cache

`nWitnessCacheSize` counts the blocks that the wallet has processed, up to `WITNESS_CACHE_SIZE`, and
no note has more witnesses than that. Every note of the wallet is witnessed at the tip, or not at
all, or above the tip at a height without shielded transactions. With that no check of
`IncrementNoteWitnesses` fails, and a block can be disconnected exactly if the cache has counted two
blocks.
-/

open List

variable {E : Env} {params : CChainParams} {tip : ℤ}

/-- The exception of a tree that has no place left. -/
def TreeFull (e : Failure) : Prop := e = .exception "tree is full"

theorem SaplingMerkleTree.append_meets {E : Env} (t : SaplingMerkleTree) (obj : Uint256) :
    (t.append E obj).Meets TreeFull fun _ => True := by
  unfold append
  split
  · rfl
  · split <;> trivial

theorem SaplingMerkleTree.appendAll_meets {E : Env} (t : SaplingMerkleTree) (objs : List Uint256) :
    (t.appendAll E objs).Meets TreeFull fun _ => True := by
  induction objs generalizing t with
  | nil => trivial
  | cons obj objs ih => exact (t.append_meets obj).bind fun t' _ => ih t'

theorem SaplingWitness.append_meets {E : Env} (w : SaplingWitness) (obj : Uint256) :
    (w.append E obj).Meets TreeFull fun _ => True := by
  unfold append
  split
  · exact (SaplingMerkleTree.append_meets _ obj).map fun _ _ => trivial
  · simp only
    split
    · rfl
    · split
      · trivial
      · exact (SaplingMerkleTree.append_meets _ obj).map fun _ _ => trivial

namespace SaplingNoteData

variable {size : ℤ} {nd : SaplingNoteData}

/-- **A note that the cache counts**: it has no more witnesses than the cache has counted
blocks, and it is witnessed at the tip, not at all, or above the tip before the upgrade. -/
structure Counted (params : CChainParams) (tip size : ℤ) (nd : SaplingNoteData) : Prop where
  length_le : nd.witnesses.length ≤ size
  height : nd.witnessHeight = -1 ∨ nd.witnessHeight = tip ∨
    tip < nd.witnessHeight ∧
      params.consensus.networkUpgradeActive nd.witnessHeight .upgradeV5_0 = false

/-- The same for the notes that were received. -/
def MineCounted (params : CChainParams) (tip size : ℤ) (nd : SaplingNoteData) : Prop :=
  nd.isMyNote = true → nd.Counted params tip size

theorem checkCacheSize_eq (h : nd.witnesses.length ≤ size) : checkCacheSize size nd = .ok () :=
  if_neg (not_lt.mpr h)

/-- The cache counts one more block, unless it is full. -/
theorem copyPreviousWitnesses_meets {new : ℤ} (hgrow : size ≤ new)
    (hnew : size < WITNESS_CACHE_SIZE → new = size + 1) (h : nd.MineCounted params tip size) :
    (copyPreviousWitnesses (tip + 1) size nd).Meets TreeFull (MineCounted params tip new) := by
  unfold copyPreviousWitnesses
  split
  · next hmine =>
    simp only [Bool.and_eq_true, decide_eq_true_eq] at hmine
    obtain ⟨hlen, hheight⟩ := h hmine.1
    have hat : nd.witnessHeight = -1 ∨ nd.witnessHeight = tip + 1 - 1 := by omega
    rw [checkCacheSize_eq hlen, if_pos hat]
    refine fun _ => ⟨?_, hheight⟩
    have hcopy : (nd.witnesses.head?.toList ++ nd.witnesses).length ≤ nd.witnesses.length + 1 := by
      cases nd.witnesses <;> simp
    simp only
    split
    · rw [length_dropLast]
      omega
    · omega
  · exact fun hmine => ⟨(h hmine).length_le.trans hgrow, (h hmine).height⟩

theorem appendNoteCommitment_meets {n : ℤ} {cm : Uint256} (h : nd.MineCounted params tip size) :
    (appendNoteCommitment E n size cm nd).Meets TreeFull (MineCounted params tip size) := by
  unfold appendNoteCommitment
  split
  · exact h
  · next w ws hw =>
    split
    · next hmine =>
      simp only [Bool.and_eq_true] at hmine
      have hcount := h hmine.1
      rw [checkCacheSize_eq hcount.length_le]
      refine (w.append_meets cm).map fun w' _ _ => ⟨?_, hcount.height⟩
      simpa [hw] using hcount.length_le
    · exact h

theorem witnessNoteIfMine_meets {key : SaplingOutPoint} {w : SaplingWitness} (hsize : 1 ≤ size)
    (h : nd.MineCounted params tip size) :
    (witnessNoteIfMine (tip + 1) size key w nd).Meets TreeFull (MineCounted params tip size) := by
  unfold witnessNoteIfMine
  split
  · simp only
    rw [checkCacheSize_eq (by simpa using hsize)]
    exact fun _ => ⟨by simpa using hsize, .inr (.inl (by simp))⟩
  · exact h

theorem updateWitnessHeights_meets (htip : -1 ≤ tip) (h : nd.MineCounted params tip size) :
    (updateWitnessHeights (tip + 1) size nd).Meets TreeFull
      (MineCounted params (tip + 1) size) := by
  unfold updateWitnessHeights
  split
  · next hmine =>
    simp only [Bool.and_eq_true] at hmine
    have hcount := h hmine.1
    simp only
    rw [checkCacheSize_eq (by simpa using hcount.length_le)]
    exact fun _ => ⟨by simpa using hcount.length_le, .inr (.inl rfl)⟩
  · next hhigh =>
    intro hmine
    obtain ⟨hlen, hheight⟩ := h hmine
    simp only [hmine, Bool.true_and, decide_eq_true_eq, not_lt] at hhigh
    refine ⟨hlen, .inr ?_⟩
    rcases hheight with hheight | hheight | ⟨-, hquiet⟩
    · omega
    · omega
    · rcases eq_or_lt_of_le hhigh with heq | hlt
      · exact .inl heq.symm
      · exact .inr ⟨hlt, hquiet⟩

/-- At a height with the upgrade no note is witnessed above the tip. -/
theorem decrementNoteWitnesses_meets (htip : -1 ≤ tip) (hsize : 1 ≤ size)
    (hactive : params.consensus.networkUpgradeActive tip .upgradeV5_0 = true)
    (h : nd.MineCounted params tip size) :
    (decrementNoteWitnesses tip size nd).Meets TreeFull
      (MineCounted params (tip - 1) (size - 1)) := by
  unfold decrementNoteWitnesses
  split
  · next hmine =>
    obtain ⟨hlen, hheight⟩ := h hmine
    have hat : nd.witnessHeight = -1 ∨ nd.witnessHeight = tip := by
      rcases hheight with hheight | hheight | ⟨habove, hquiet⟩
      · exact .inl hheight
      · exact .inr hheight
      · rw [params.consensus.networkUpgradeActive_mono habove.le hactive] at hquiet
        cases hquiet
    have htail : nd.witnesses.tail.length ≤ size - 1 := by
      rw [length_tail]
      omega
    rw [if_pos (by omega), popWitness, checkCacheSize_eq hlen, Except.ok_bind, if_pos hat,
      Except.ok_bind, if_neg (fun hfail => absurd hfail.2 (not_lt.mpr htail))]
    exact fun _ => ⟨htail, .inr (.inl rfl)⟩
  · next hmine => exact fun hmine' => absurd hmine' hmine

/-- No check of `DecrementNoteWitnesses` is about a tree. -/
theorem decrementNoteWitnesses_not_treeFull {n : ℤ} :
    (decrementNoteWitnesses n size nd).Meets (fun e => ¬ TreeFull e) fun _ => True := by
  have hcheck : (checkCacheSize size nd).Meets (fun e => ¬ TreeFull e) fun _ => True := by
    unfold checkCacheSize
    split <;> simp [Except.Meets, TreeFull]
  have hpop : (popWitness n size nd).Meets (fun e => ¬ TreeFull e) fun _ => True := by
    refine hcheck.bind fun _ _ => ?_
    split <;> simp [Except.Meets, TreeFull]
  unfold decrementNoteWitnesses
  split
  · refine Except.Meets.bind (P := fun _ => True) ?_ fun nd' _ => ?_
    · split
      · exact hpop
      · trivial
    · split <;> simp [Except.Meets, TreeFull]
  · trivial

end SaplingNoteData

namespace NoteCache

variable {cache : NoteCache}

/-- **A cache that counts its notes.** -/
structure Counts (params : CChainParams) (tip : ℤ) (cache : NoteCache) : Prop where
  nonneg : 0 ≤ cache.nWitnessCacheSize
  notes : ∀ nd ∈ cache.notes, nd.MineCounted params tip cache.nWitnessCacheSize

/-- **No check of `IncrementNoteWitnesses` fails.** -/
theorem Counts.incrementNoteWitnesses (h : cache.Counts params tip) (htip : -1 ≤ tip)
    (vtx : List CTransaction) (tree : SaplingMerkleTree) :
    (cache.incrementNoteWitnesses E (tip + 1) vtx tree).Meets TreeFull
      (Counts params (tip + 1)) := by
  unfold NoteCache.incrementNoteWitnesses
  generalize hnew : (if cache.nWitnessCacheSize < WITNESS_CACHE_SIZE then
    cache.nWitnessCacheSize + 1 else cache.nWitnessCacheSize) = new
  have hcap : WITNESS_CACHE_SIZE = 101 := rfl
  have hgrow : cache.nWitnessCacheSize ≤ new ∧ 1 ≤ new := by
    have := h.nonneg
    split at hnew <;> omega
  have hstep : cache.nWitnessCacheSize < WITNESS_CACHE_SIZE → new = cache.nWitnessCacheSize + 1 :=
    fun hlt => by rw [← hnew, if_pos hlt]
  refine (Except.Meets.mapM fun nd hnd =>
    SaplingNoteData.copyPreviousWitnesses_meets hgrow.1 hstep (h.notes nd hnd)).bind
      fun notes hnotes => ?_
  refine (Except.Meets.foldlM (fun _ s => ∀ nd ∈ s.2, nd.MineCounted params tip new) hnotes
    fun _ output s _ hs => ?_).bind fun s hs => ?_
  · refine (s.1.append_meets output.2).bind fun tree' _ => ?_
    refine (Except.Meets.mapM fun nd hnd =>
      SaplingNoteData.appendNoteCommitment_meets (hs nd hnd)).bind fun notes' hnotes' => ?_
    exact (Except.Meets.mapM fun nd hnd =>
      SaplingNoteData.witnessNoteIfMine_meets hgrow.2 (hnotes' nd hnd)).map fun _ hmet => hmet
  · exact (Except.Meets.mapM fun nd hnd =>
      SaplingNoteData.updateWitnessHeights_meets htip (hs nd hnd)).map
        fun notes' hnotes' => ⟨(by omega : 0 ≤ new), hnotes'⟩

/-- **`DecrementNoteWitnesses` returns exactly if the cache has counted two blocks.** -/
theorem Counts.decrementNoteWitnesses (h : cache.Counts params tip) (htip : -1 ≤ tip)
    (hactive : params.consensus.networkUpgradeActive tip .upgradeV5_0 = true)
    (hsize : 2 ≤ cache.nWitnessCacheSize) :
    (cache.decrementNoteWitnesses params tip).Meets TreeFull (Counts params (tip - 1)) := by
  refine (Except.Meets.mapM fun nd hnd =>
    SaplingNoteData.decrementNoteWitnesses_meets htip (by omega) hactive (h.notes nd hnd)).bind
      fun notes hnotes => ?_
  rw [if_neg (by omega)]
  exact ⟨by simp only; omega, hnotes⟩

theorem decrementNoteWitnesses_fails (params : CChainParams) (tip : ℤ)
    (hsize : cache.nWitnessCacheSize < 2) :
    (cache.decrementNoteWitnesses params tip).Meets (fun e => ¬ TreeFull e) fun _ => False := by
  refine (Except.Meets.mapM fun nd _ =>
    SaplingNoteData.decrementNoteWitnesses_not_treeFull).bind fun notes _ => ?_
  rw [if_pos (by omega)]
  split <;> simp [Except.Meets, TreeFull]

theorem Counts.addNote (h : cache.Counts params tip) (op : SaplingOutPoint) (isMyNote : Bool) :
    (cache.addNote op isMyNote).Counts params tip := by
  unfold NoteCache.addNote
  split
  · exact h
  · refine ⟨h.nonneg, fun nd hnd => ?_⟩
    rcases mem_cons.mp hnd with rfl | hnd
    · exact fun _ => ⟨by simpa using h.nonneg, .inl rfl⟩
    · exact h.notes nd hnd

theorem counts_clear : cache.clearNoteWitnessCache.Counts params tip := by
  refine ⟨le_rfl, fun nd hnd => ?_⟩
  obtain ⟨nd', -, rfl⟩ := mem_map.mp hnd
  exact fun _ => ⟨le_rfl, .inl rfl⟩

end NoteCache

namespace NoteView

variable {s t : NoteView}

/-- **A wallet that counts its notes**, at the tip of a chain. -/
def Counts (params : CChainParams) (s : NoteView) : Prop :=
  s.cache.Counts params (s.chain.length - 1)

/-- The first block is not disconnected. -/
def KeepsGenesis (s : NoteView) : NoteCall → Prop
  | .disconnected => 2 ≤ s.chain.length
  | _ => True

/-- **The condition on a call**: when a block is disconnected, the cache has counted two. -/
def CacheLasts (params : CChainParams) (s : NoteView) : NoteCall → Prop
  | .disconnected =>
    params.consensus.networkUpgradeActive (s.chain.length - 1) .upgradeV5_0 = true →
      2 ≤ s.cache.nWitnessCacheSize
  | _ => True

instance (s : NoteView) : DecidablePred s.KeepsGenesis
  | .disconnected => inferInstanceAs (Decidable (2 ≤ s.chain.length))
  | .connected _ | .added _ _ | .cleared => .isTrue trivial

instance (params : CChainParams) (s : NoteView) : DecidablePred (s.CacheLasts params)
  | .disconnected => inferInstanceAs (Decidable (_ = true → 2 ≤ s.cache.nWitnessCacheSize))
  | .connected _ | .added _ _ | .cleared => .isTrue trivial

/-- No check fails: a call returns, or the tree is full. -/
def Survives (E : Env) (params : CChainParams) (s : NoteView) (call : NoteCall) : Prop :=
  ∀ e, s.step E params call = .error e → TreeFull e

theorem Counts.step_meets (h : s.Counts params) {call : NoteCall} (hgenesis : s.KeepsGenesis call)
    (hlasts : s.CacheLasts params call) :
    (s.step E params call).Meets TreeFull (Counts params) := by
  cases call with
  | connected b =>
    refine (SaplingMerkleTree.empty.appendAll_meets _).bind fun tree _ => ?_
    have hinc := NoteCache.Counts.incrementNoteWitnesses (E := E) h (by omega) b.vtx tree
    rw [sub_add_cancel] at hinc
    exact hinc.map fun cache hcache => by simpa [Counts] using hcache
  | disconnected =>
    have hlen : 2 ≤ s.chain.length := hgenesis
    have htip : (s.chain.dropLast.length : ℤ) = s.chain.length - 1 := by
      rw [length_dropLast]
      omega
    unfold step
    simp only
    split
    · next hactive =>
      refine (NoteCache.Counts.decrementNoteWitnesses h (by omega) hactive (hlasts hactive)).map
        fun cache hcache => ?_
      rw [← htip] at hcache
      exact hcache
    · next hquiet =>
      refine ⟨h.nonneg, fun nd hnd hmine => ⟨(h.notes nd hnd hmine).length_le, ?_⟩⟩
      simp only [htip]
      -- Blocks below the upgrade leave the height of a note where it was.
      rcases (h.notes nd hnd hmine).height with hnone | hat | ⟨habove, hbefore⟩
      · exact .inl hnone
      · exact .inr (.inr ⟨by omega, by rw [hat]; simpa using hquiet⟩)
      · exact .inr (.inr ⟨by omega, hbefore⟩)
  | added op isMyNote => exact NoteCache.Counts.addNote h op isMyNote
  | cleared => exact NoteCache.counts_clear

/-- A call that survives meets the condition. -/
theorem cacheLasts_of_survives {call : NoteCall} (h : s.Survives E params call) :
    s.CacheLasts params call := by
  cases call with
  | disconnected =>
    intro hactive
    by_contra hsize
    have hfails := NoteCache.decrementNoteWitnesses_fails params (s.chain.length - 1)
      (not_le.mp hsize)
    cases hdec : s.cache.decrementNoteWitnesses params (s.chain.length - 1) with
    | ok cache => exact hfails.of_ok hdec
    | error e =>
      refine hfails.of_error hdec (h e ?_)
      rw [step, if_pos hactive, hdec]
      rfl
  | _ => trivial

/-- **No check of the witness cache fails exactly if every block that is disconnected finds a
cache that has counted two.** -/
theorem noteWitnesses_survive_iff {calls : List NoteCall} (h : s.Counts params)
    (hgenesis : Run.EachAction (step E params) s KeepsGenesis calls) :
    Run.EachAction (step E params) s (Survives E params) calls ↔
      Run.EachAction (step E params) s (CacheLasts params) calls := by
  constructor
  · intro hsurvive pre call post u hcalls hpre
    exact cacheLasts_of_survives (hsurvive pre call post u hcalls hpre)
  · intro hlasts pre call post u hcalls hpre e he
    have hcounts : u.Counts params := by
      refine Run.invariant h (fun before c rest v t hbefore hv hstep hcounts => ?_) hpre
      have hsplit : calls = before ++ c :: (rest ++ call :: post) := by simp [hcalls, hbefore]
      exact (Counts.step_meets hcounts (hgenesis before c _ v hsplit hv)
        (hlasts before c _ v hsplit hv)).of_ok hstep
    exact (hcounts.step_meets (hgenesis pre call post u hcalls hpre)
      (hlasts pre call post u hcalls hpre)).of_error he

namespace CacheSample

/-- Ids that can be told from the lock time of a transaction without inputs and outputs. -/
def env : Env := { sampleEnv with hash := fun b => BaseUint.ofNat (Bytes.toNatLE ((b.drop 6).take 4)) }

def output : OutputDescription where
  cv := BaseUint.zero
  cmu := BaseUint.ofNat 7
  ephemeralKey := BaseUint.zero
  encCiphertext := .zeros 580
  outCiphertext := .zeros 80
  zkproof := .zeros 192

/-- A transaction with a lock time and `k` shielded outputs. -/
def tx (n k : ℕ) : CTransaction :=
  { CTransaction.plain [] [] with
    nVersion := 3
    nLockTime := UInt32.ofNat n
    sapData := some { SaplingTxData.empty with vShieldedOutput := List.replicate k output } }

/-- The note of the wallet. -/
def op : SaplingOutPoint := ⟨BaseUint.ofNat (2 ^ 32 - 1), 0⟩

/-- The block of the note. -/
def block : ChainBlock := ⟨BaseUint.ofNat 3, [tx (2 ^ 32 - 1) 1]⟩

/-- A chain of a first block, and a new wallet. -/
def fresh : NoteView := ⟨[⟨BaseUint.ofNat 1, []⟩], ⟨[], 0⟩⟩

theorem fresh_counts : fresh.Counts mainParams := ⟨le_rfl, fun nd hnd => by simp [fresh] at hnd⟩

end CacheSample

open CacheSample in
/-- A new wallet with a note processes the block of the note and another one, which is
disconnected: the note keeps a witness. -/
theorem noteWitnesses_survive_two_blocks :
    let calls := [.added op true, .connected block, .connected ⟨BaseUint.ofNat 4, [tx 1 1]⟩,
      .disconnected]
    (∃ t, Run.after (step env mainParams) fresh calls = .ok t ∧
      ∃ nd ∈ t.cache.notes, nd.op = op ∧ nd.witnesses.length = 1) ∧
    Run.EachAction (step env mainParams) fresh (Survives env mainParams) calls :=
  ⟨by decide +kernel, (noteWitnesses_survive_iff fresh_counts (.of_get (by decide +kernel))).mpr
    (.of_get (by decide +kernel))⟩

open CacheSample in
/-- **A new wallet stops when the first block it has processed is disconnected.** -/
theorem not_noteWitnesses_survive :
    ¬ ∀ (E : Env) (params : CChainParams) (s : NoteView) (calls : List NoteCall),
      s.Counts params → Run.EachAction (step E params) s KeepsGenesis calls →
      ¬ List.replicate (DEFAULT_MAX_REORG_DEPTH + 1) .disconnected <:+: calls →
        Run.EachAction (step E params) s (Survives E params) calls := by
  intro h
  have hgenesis : Run.EachAction (step sampleEnv mainParams) fresh KeepsGenesis
      [.connected ⟨BaseUint.ofNat 2, []⟩, .disconnected] := .of_get (by decide +kernel)
  have hshort : ¬ replicate (DEFAULT_MAX_REORG_DEPTH + 1) NoteCall.disconnected <:+:
      [.connected ⟨BaseUint.ofNat 2, []⟩, .disconnected] :=
    fun hinfix => absurd hinfix.length_le (by simp [DEFAULT_MAX_REORG_DEPTH])
  have hsurvive := h sampleEnv mainParams fresh _ fresh_counts hgenesis hshort
    [.connected ⟨BaseUint.ofNat 2, []⟩] .disconnected [] _ rfl rfl
  have hfull := hsurvive _ rfl
  simp [TreeFull] at hfull

end NoteView

end Passion
