import Passion.Mempool.Pool
import Passion.Wallet.CoinStakeForm
import Passion.Common.Runs

/-!
# The block assembler

`BlockAssembler` of `blockassembler.cpp`: a block starts with its coinbase, or with an empty
coinbase and a coinstake, and two passes over the memory pool append transactions to it, the first
by priority and the second by fee for size. Both ask `TestForBlock` whether an entry fits, and set
aside what depends on entries that are not in the block yet. The header fields that `CreateNewBlock`
fills in later are taken as given; logging is left out.
-/

namespace Passion

open Worklist Traversal

/-! ## The state -/

/-- The command line options of the assembler. -/
structure AssemblerOptions where
  blockmaxsize : ℤ := DEFAULT_BLOCK_MAX_SIZE
  blockminsize : ℤ := 0
  blockprioritysize : ℤ := 50000

/-- What the assembler reads of the node. -/
structure AssemblerContext where
  options : AssemblerOptions
  nHeight : ℤ
  /-- `IsSporkActive(SPORK_20_SAPLING_MAINTENANCE)`. -/
  fSaplingMaintenance : Bool
  nAdjustedTime : ℤ
  minRelayTxFee : CFeeRate

/-- An option, read into an `unsigned int`. -/
def unsignedOption (n : ℤ) : ℕ := (n % 2 ^ 32).toNat

namespace AssemblerContext

variable (c : AssemblerContext)

/-- `nBlockMaxSize`. -/
def nBlockMaxSize : ℕ :=
  max 1000 (min (MAX_BLOCK_SIZE_CURRENT - 1000) (unsignedOption c.options.blockmaxsize))

/-- `nBlockMinSize`. -/
def nBlockMinSize : ℕ := min c.nBlockMaxSize (unsignedOption c.options.blockminsize)

/-- `nBlockPrioritySize`. -/
def nBlockPrioritySize : ℕ := min c.nBlockMaxSize (unsignedOption c.options.blockprioritysize)

end AssemblerContext

/-- The counters of `BlockAssembler` and the block template it builds. -/
structure BlockAssembler where
  /-- `pblock->vtx`. -/
  vtx : List CTransaction
  vTxFees : List Int64
  vTxSigOps : List ℤ
  nBlockSize : ℕ
  nBlockTx : ℕ
  nBlockSigOps : ℕ
  nFees : Int64
  /-- `inBlock`, by ids. -/
  inBlock : List Uint256
  lastFewTxs : ℕ
  blockFinished : Bool
  nSizeShielded : ℕ

/-- `resetBlock` on a new assembler, for a block that has its first transactions. The space
for them is a constant. -/
def BlockAssembler.start (vtx : List CTransaction) : BlockAssembler where
  vtx := vtx
  vTxFees := [-1]
  vTxSigOps := [-1]
  nBlockSize := 1000
  nBlockTx := 0
  nBlockSigOps := 100
  nFees := 0
  inBlock := []
  lastFewTxs := 0
  blockFinished := false
  nSizeShielded := 0

variable {D : Type} (ops : DoubleOps D) (H : Hashing) (c : AssemblerContext)
variable (pool : TxMemPool D)

/-! ## One entry -/

namespace BlockAssembler

variable (s : BlockAssembler) (iter : CTxMemPoolEntry D)

/-- `inBlock.count(iter)`. -/
def contains : Bool := s.inBlock.contains (iter.hash H)

/-- `isStillDependent`. -/
def isStillDependent : Result Bool :=
  (pool.getMemPoolParents (iter.hash H)).map fun parents => ∃ p ∈ parents, p ∉ s.inBlock

/-- `TestForBlock`: whether the entry fits, and the counters after the test. -/
def testForBlock : Bool × BlockAssembler :=
  let nTxSize := iter.nTxSize % 2 ^ 32
  if iter.isShielded && c.fSaplingMaintenance then (false, s)
  else if s.nBlockSize + nTxSize ≥ c.nBlockMaxSize then
    if s.nBlockSize > c.nBlockMaxSize - 100 ∨ s.lastFewTxs > 50 then
      (false, { s with blockFinished := true })
    else if s.nBlockSize > c.nBlockMaxSize - 1000 then
      (false, { s with lastFewTxs := s.lastFewTxs + 1 })
    else (false, s)
  else if iter.isShielded &&
      decide ((s.nSizeShielded + nTxSize) % 2 ^ 32 > MAX_BLOCK_SHIELDED_TXES_SIZE) then
    (false, s)
  else if (s.nBlockSigOps + iter.sigOpCount) % 2 ^ 32 ≥ MAX_BLOCK_SIGOPS_CURRENT then
    if s.nBlockSigOps > MAX_BLOCK_SIGOPS_CURRENT - 2 then (false, { s with blockFinished := true })
    else (false, s)
  else if !isFinalTx iter.tx c.nHeight 0 c.nAdjustedTime then (false, s)
  else (true, s)

/-- `AddToBlock`. -/
def addToBlock : BlockAssembler :=
  { s with
    vtx := s.vtx ++ [iter.tx]
    vTxFees := s.vTxFees ++ [iter.nFee]
    vTxSigOps := s.vTxSigOps ++ [(iter.sigOpCount : ℤ)]
    nBlockSize := (s.nBlockSize + iter.nTxSize) % 2 ^ 64
    nBlockTx := s.nBlockTx + 1
    nBlockSigOps := (s.nBlockSigOps + iter.sigOpCount) % 2 ^ 32
    nFees := s.nFees + iter.nFee
    nSizeShielded :=
      if iter.isShielded then (s.nSizeShielded + iter.nTxSize) % 2 ^ 32 else s.nSizeShielded
    inBlock := iter.hash H :: s.inBlock }

/-- **An entry is offered**: tested, and added where it fits. -/
def offer : BlockAssembler :=
  let (fits, s) := s.testForBlock c iter
  if fits then s.addToBlock H iter else s

end BlockAssembler

/-- The error of a loop that would need another turn. -/
def noTurnLeft : Failure := .error "no turn left"

/-! ## By priority -/

/-- The loop of `addPriorityTxs`: the heap `vecPriority` and, by ids, the map `waitPriMap` of
what waits for a parent, and whether the function returned from inside. -/
structure PriorityPass (D : Type) where
  asm : BlockAssembler
  work : Deferred Uint256 (D × CTxMemPoolEntry D)
  returned : Bool

namespace PriorityPass

/-- The loop is left. -/
def done (s : PriorityPass D) : Bool :=
  s.work.queue.isEmpty || s.asm.blockFinished || s.returned

/-- The end of the loop's body, after an entry went in: its children are tried again. -/
def afterAdding (s : PriorityPass D) (iter : D × CTxMemPoolEntry D) : Result (PriorityPass D) :=
  if s.asm.nBlockSize ≥ c.nBlockPrioritySize || !allowFree ops iter.1 then
    .ok { s with returned := true }
  else (pool.getMemPoolChildren (iter.2.hash H)).map fun children =>
    { s with work := s.work.takeBackAll (inOrder children) }

/-- The body of the loop for the entry on top of the heap. -/
def takeUp (s : PriorityPass D) (iter : D × CTxMemPoolEntry D) : Result (PriorityPass D) :=
  if s.asm.contains H iter.2 then .error (.assertion "false")
  else (s.asm.isStillDependent H pool iter.2).bind fun dependent =>
    if dependent then .ok { s with work := s.work.putAside (iter.2.hash H) iter }
    else
      let asm := s.asm.offer H c iter.2
      if (s.asm.testForBlock c iter.2).1 then
        afterAdding ops H c pool { s with asm := asm } iter
      else .ok { s with asm := asm }

/-- One turn of the loop. -/
def step (s : PriorityPass D) : Result (PriorityPass D) :=
  match popMax (CTxMemPoolEntry.compareByPriority ops H) s.work.queue with
  | none => .error (.outOfBounds "vecPriority.front()")
  | some (iter, queue) => takeUp ops H c pool { s with work := ⟨queue, s.work.waiting⟩ } iter

/-- What bounds the number of turns. -/
def turns (s : PriorityPass D) : ℕ := rank s.work.queue.length s.work.waiting.keys.length

/-- The start of the loop: every entry of the pool is on the heap with its priority. -/
def start (asm : BlockAssembler) : PriorityPass D where
  asm := asm
  work :=
    { queue := pool.entries.map fun e =>
        (pool.applyPriorityDelta ops (e.hash H)
          (e.getPriority ops (UInt32.ofNat (unsignedOption c.nHeight))), e)
      waiting := ∅ }
  returned := false

end PriorityPass

/-- `addPriorityTxs`. -/
def addPriorityTxs (asm : BlockAssembler) : Result BlockAssembler :=
  if c.nBlockPrioritySize = 0 then .ok asm
  else
    let s := PriorityPass.start ops H c pool asm
    (Machine.run (PriorityPass.step ops H c pool) PriorityPass.done noTurnLeft s.turns s).map (·.asm)

/-! ## By fee for size -/

/-- The loop of `addScoreTxs`: what is left of the index, the entries `clearedTxs` and, by ids,
the set `waitSet` of what waits for a parent, and whether the function returned from inside. -/
structure ScorePass (D : Type) where
  asm : BlockAssembler
  mi : List (CTxMemPoolEntry D)
  work : Deferred Uint256 (CTxMemPoolEntry D)
  returned : Bool

namespace ScorePass

/-- The loop is left. -/
def done (s : ScorePass D) : Bool :=
  s.asm.blockFinished || (s.mi.isEmpty && s.work.queue.isEmpty) || s.returned

/-- The entry for this turn: one that was cleared, or the next of the index. `ScoreCompare`
is the order by score, turned round. -/
def next (s : ScorePass D) : Option (CTxMemPoolEntry D × ScorePass D) :=
  match popMax (fun a b => CTxMemPoolEntry.compareByScore ops H b a) s.work.queue with
  | some (iter, queue) => some (iter, { s with work := ⟨queue, s.work.waiting⟩ })
  | none =>
    match s.mi with
    | [] => none
    | iter :: mi => some (iter, { s with mi := mi })

/-- The fee is below what mining asks for, and the block has its minimum size. -/
def tooCheap (s : ScorePass D) (iter : CTxMemPoolEntry D) : Bool :=
  decide (iter.modifiedFee.toInt < c.minRelayTxFee.getFee iter.nTxSize) &&
    decide (s.asm.nBlockSize ≥ c.nBlockMinSize)

/-- The body of the loop for an entry. -/
def takeUp (s : ScorePass D) (iter : CTxMemPoolEntry D) : Result (ScorePass D) :=
  if s.asm.contains H iter then .ok s
  else (s.asm.isStillDependent H pool iter).bind fun dependent =>
    if dependent then .ok { s with work := s.work.putAside (iter.hash H) iter }
    else if s.tooCheap c iter then .ok { s with returned := true }
    else
      let asm := s.asm.offer H c iter
      if (s.asm.testForBlock c iter).1 then
        (pool.getMemPoolChildren (iter.hash H)).map fun children =>
          { s with asm := asm, work := s.work.takeBackAll (inOrder children) }
      else .ok { s with asm := asm }

/-- One turn of the loop. -/
def step (s : ScorePass D) : Result (ScorePass D) :=
  match s.next ops H with
  | none => .error (.outOfBounds "*mi")
  | some (iter, s) => takeUp H c pool s iter

/-- What bounds the number of turns. -/
def turns (s : ScorePass D) : ℕ :=
  rank (s.mi.length + s.work.queue.length) s.work.waiting.keys.length

/-- The start of the loop. -/
def start (asm : BlockAssembler) : ScorePass D where
  asm := asm
  mi := pool.miningScore ops H
  work := ⟨[], ∅⟩
  returned := false

end ScorePass

/-- `addScoreTxs`. -/
def addScoreTxs (asm : BlockAssembler) : Result BlockAssembler :=
  let s := ScorePass.start ops H pool asm
  (Machine.run (ScorePass.step ops H c pool) ScorePass.done noTurnLeft s.turns s).map (·.asm)

/-! ## The block -/

/-- `CreateCoinbaseTx`. -/
def createCoinbaseTx (params : CChainParams) (scriptPubKeyIn : CScript) (nHeight : ℤ) :
    CTransaction :=
  .coinbase (CScript.pushInt64 nHeight ++ [Opcode.OP_0])
    [⟨getBlockValue params nHeight, scriptPubKeyIn⟩]

/-- The coinbase of `SolveProofOfStake`. -/
def emptyCoinbase (nHeight : ℤ) : CTransaction :=
  .coinbase (CScript.pushInt64 nHeight ++ [Opcode.OP_0]) [⟨0, []⟩]

/-- What a block starts from. A coinstake is made from a new transaction and keeps the version
of it, which knows no shielded data. -/
inductive FirstTxs
  | coinbase (scriptPubKeyIn : CScript)
  | coinstake (tx : CTransaction) (legacy : tx.isSaplingVersion = false)

namespace FirstTxs

/-- `fProofOfStake`. -/
def fProofOfStake : FirstTxs → Bool
  | .coinbase _ => false
  | .coinstake _ _ => true

/-- The transactions. -/
def vtx (params : CChainParams) (nHeight : ℤ) : FirstTxs → List CTransaction
  | .coinbase scriptPubKeyIn => [createCoinbaseTx params scriptPubKeyIn nHeight]
  | .coinstake tx _ => [emptyCoinbase nHeight, tx]

end FirstTxs

/-- `CBlockTemplate`. -/
structure CBlockTemplate where
  block : CBlock
  vTxFees : List Int64
  vTxSigOps : List ℤ

/-- The first output of the coinbase gets the fees. -/
def payFees (nFees : ℤ) (vtx : List CTransaction) : List CTransaction :=
  vtx.modifyHead fun txCoinbase =>
    { txCoinbase with
      vout := txCoinbase.vout.modifyHead fun out => { out with nValue := out.nValue + nFees } }

/-- The template of the assembler. The block is signed, and has the header fields, of
`header`. -/
def BlockAssembler.template (s : BlockAssembler) (fProofOfStake : Bool) (header : CBlock) :
    CBlockTemplate :=
  let vtx := if fProofOfStake then s.vtx else payFees s.nFees.toInt s.vtx
  { block := { header with vtx := vtx }
    vTxFees := if fProofOfStake then s.vTxFees else s.vTxFees.set 0 (-s.nFees)
    vTxSigOps := s.vTxSigOps.set 0 ((vtx.head?.map fun tx => (getLegacySigOpCount tx : ℤ)).getD 0) }

/-- `CreateNewBlock`, up to the block it hands to `TestBlockValidity`. -/
def createNewBlock (params : CChainParams) (first : FirstTxs) (header : CBlock) :
    Result CBlockTemplate :=
  (addPriorityTxs ops H c pool (.start (first.vtx params c.nHeight))).bind fun s =>
  (addScoreTxs ops H c pool s).map fun s => s.template first.fProofOfStake header

/-! ## What the two passes do to the block

Whatever the orders, the dependencies and the conditions to stop are, a pass offers entries of
the pool that are not in the block yet, one after the other, and changes the block in no other way.
Every turn lowers the rank of the work, so that both passes end.
-/

open List Except
variable {D : Type} {ops : DoubleOps D} {H : Hashing} {c : AssemblerContext}
variable {pool : TxMemPool D} {P : BlockAssembler → Prop}

/-- Offers of entries that are not in the block keep a property. -/
def BlockAssembler.OffersKeep (H : Hashing) (c : AssemblerContext) (pool : TxMemPool D)
    (P : BlockAssembler → Prop) : Prop :=
  ∀ s, ∀ iter ∈ pool.entries, s.contains H iter = false → P s → P (s.offer H c iter)

theorem links_meets {α : Type} (f : PoolLinks → α) (it : Uint256) :
    ((pool.links it).map f).Meets (· ≠ noTurnLeft) fun _ => True := by
  unfold TxMemPool.links
  split
  · exact Failure.noConfusion
  · exact trivial

theorem isStillDependent_meets (s : BlockAssembler) (iter : CTxMemPoolEntry D) :
    (s.isStillDependent H pool iter).Meets (· ≠ noTurnLeft) fun _ => True :=
  (links_meets _ _).map fun _ _ => trivial

section

variable (hoffer : BlockAssembler.OffersKeep H c pool P)

include hoffer

/-! ## By priority -/

namespace PriorityPass

variable {s : PriorityPass D} {iter : D × CTxMemPoolEntry D}

/-- **A turn with an entry**: the block is offered the entry or left alone, and the work keeps
the entry at most. -/
theorem takeUp_meets (hP : P s.asm) (hall : s.work.All fun p => p.2 ∈ pool.entries)
    (hiter : iter.2 ∈ pool.entries) :
    (takeUp ops H c pool s iter).Meets (· ≠ noTurnLeft) fun t =>
      (P t.asm ∧ t.work.All fun p => p.2 ∈ pool.entries) ∧ s.work.Turned t.work := by
  unfold takeUp
  split
  · exact Failure.noConfusion
  · next hnew =>
    refine (isStillDependent_meets _ _).bind fun dependent _ => ?_
    have hoffered := hoffer s.asm iter.2 hiter (by simpa using hnew) hP
    split
    · -- a parent is not in the block yet
      exact ⟨⟨hP, hall.putAside hiter⟩, .putAside⟩
    · dsimp only
      split
      · unfold afterAdding
        split
        · exact ⟨⟨hoffered, hall⟩, .refl⟩
        · -- it was added, and its children are taken up again
          exact (links_meets _ _).map fun children _ =>
            ⟨⟨hoffered, hall.takeBackAll _⟩, .takeBackAll _⟩
      · exact ⟨⟨hoffered, hall⟩, .refl⟩

/-- **One turn.** -/
theorem step_meets (hs : P s.asm ∧ s.work.All fun p => p.2 ∈ pool.entries) :
    (step ops H c pool s).Meets (· ≠ noTurnLeft) fun t =>
      (P t.asm ∧ t.work.All fun p => p.2 ∈ pool.entries) ∧ t.turns < s.turns := by
  unfold step
  split
  · exact Failure.noConfusion
  · next iter rest hpop =>
    have hperm := popMax_perm hpop
    have hlen : s.work.queue.length = 0 + rest.length + 1 := by
      rw [hperm.length_eq, Nat.zero_add, length_cons]
    refine (takeUp_meets hoffer (s := { s with work := ⟨rest, s.work.waiting⟩ }) hs.1
      ⟨fun p hp => hs.2.1 p (hperm.mem_iff.mpr (mem_cons_of_mem _ hp)), hs.2.2⟩
      (hs.2.1 iter (hperm.mem_iff.mpr (by simp)))).mono ?_
    rintro t ⟨ht, hwork⟩
    refine ⟨ht, ?_⟩
    have hrank := hwork.rank_lt hlen
    rwa [Nat.zero_add] at hrank

end PriorityPass

/-- **The pass by priority ends**, and keeps what offers keep. -/
theorem addPriorityTxs_meets {s : BlockAssembler} (hs : P s) :
    (addPriorityTxs ops H c pool s).Meets (· ≠ noTurnLeft) P := by
  unfold addPriorityTxs
  split
  · exact hs
  · refine (Machine.run_meets (fun u : PriorityPass D => P u.asm ∧ u.work.All fun p =>
      p.2 ∈ pool.entries) PriorityPass.turns (fun u hzero => ?_)
      (fun u hu => PriorityPass.step_meets hoffer hu) ⟨hs, fun p hp => ?_, fun k p hp => ?_⟩
      le_rfl).map fun u hu => hu.1
    · have hqueue : u.work.queue = [] := eq_nil_of_length_eq_zero (Nat.eq_zero_of_add_eq_zero hzero).2
      simp [PriorityPass.done, hqueue]
    · obtain ⟨e, he, rfl⟩ := mem_map.mp hp
      exact he
    · cases hp

/-! ## By fee for size -/

namespace ScorePass

variable {s t : ScorePass D} {iter : CTxMemPoolEntry D}

omit hoffer in
/-- The entries the pass has to do with are those of the pool. -/
def InPool (pool : TxMemPool D) (s : ScorePass D) : Prop :=
  (∀ e ∈ s.mi, e ∈ pool.entries) ∧ s.work.All fun e => e ∈ pool.entries

/-- **A turn with an entry**, which is offered, set aside or left. -/
theorem takeUp_meets (hP : P s.asm) (hall : s.InPool pool) (hiter : iter ∈ pool.entries) :
    (takeUp H c pool s iter).Meets (· ≠ noTurnLeft) fun t =>
      (P t.asm ∧ t.InPool pool) ∧ t.mi = s.mi ∧ s.work.Turned t.work := by
  unfold takeUp
  split
  · exact ⟨⟨hP, hall⟩, rfl, .refl⟩
  · next hnew =>
    refine (isStillDependent_meets _ _).bind fun dependent _ => ?_
    have hoffered := hoffer s.asm iter hiter (by simpa using hnew) hP
    split
    · -- a parent is not in the block yet
      exact ⟨⟨hP, hall.1, hall.2.putAside hiter⟩, rfl, .putAside⟩
    · split
      · exact ⟨⟨hP, hall⟩, rfl, .refl⟩
      · dsimp only
        split
        · -- it was added, and its children are taken up again
          exact (links_meets _ _).map fun children _ =>
            ⟨⟨hoffered, hall.1, hall.2.takeBackAll _⟩, rfl, .takeBackAll _⟩
        · exact ⟨⟨hoffered, hall⟩, rfl, .refl⟩

omit hoffer in
variable (pool) in
/-- The entry of a turn comes from one of the two queues. -/
theorem next_spec (h : s.next ops H = some (iter, t)) :
    t.asm = s.asm ∧ t.work.waiting = s.work.waiting ∧
    s.mi.length + s.work.queue.length = t.mi.length + t.work.queue.length + 1 ∧
    (s.InPool pool → iter ∈ pool.entries ∧ t.InPool pool) := by
  unfold next at h
  split at h
  · next top rest hpop =>
    cases h
    have hperm := popMax_perm hpop
    have hlen : s.work.queue.length = rest.length + 1 := hperm.length_eq
    refine ⟨rfl, rfl, by simp only [hlen]; omega, fun hall => ⟨?_, hall.1, ?_, hall.2.2⟩⟩
    · exact hall.2.1 iter (hperm.mem_iff.mpr (by simp))
    · exact fun e he => hall.2.1 e (hperm.mem_iff.mpr (mem_cons_of_mem _ he))
  · split at h
    · cases h
    · next top rest hmi =>
      cases h
      refine ⟨rfl, rfl, by simp only [hmi, length_cons]; omega, fun hall => ?_⟩
      obtain ⟨hindex, hwork⟩ := hall
      rw [hmi] at hindex
      obtain ⟨htop, hrest⟩ := forall_mem_cons.mp hindex
      exact ⟨htop, hrest, hwork⟩

/-- **One turn.** -/
theorem step_meets (hs : P s.asm ∧ s.InPool pool) :
    (step ops H c pool s).Meets (· ≠ noTurnLeft) fun t =>
      (P t.asm ∧ t.InPool pool) ∧ t.turns < s.turns := by
  unfold step
  split
  · exact Failure.noConfusion
  · next iter u hnext =>
    obtain ⟨hasm, hwaiting, hlen, hentries⟩ := next_spec pool hnext
    obtain ⟨hiter, hu⟩ := hentries hs.2
    refine (takeUp_meets hoffer (hasm ▸ hs.1) hu hiter).mono ?_
    rintro t ⟨ht, hmi, hwork⟩
    refine ⟨ht, ?_⟩
    rw [turns, turns, hmi, ← hwaiting]
    exact hwork.rank_lt hlen

end ScorePass

/-- **The pass by fee for size ends**, and keeps what offers keep. -/
theorem addScoreTxs_meets {s : BlockAssembler} (hs : P s) :
    (addScoreTxs ops H c pool s).Meets (· ≠ noTurnLeft) P := by
  refine (Machine.run_meets (fun u : ScorePass D => P u.asm ∧ u.InPool pool) ScorePass.turns
    (fun u hzero => ?_) (fun u hu => ScorePass.step_meets hoffer hu)
    ⟨hs, fun e he => (perm_insertionSort _ pool.entries).mem_iff.mp he, fun e he => ?_,
      fun k e he => ?_⟩ le_rfl).map fun u hu => hu.1
  · have hlen := (Nat.eq_zero_of_add_eq_zero hzero).2
    have hmi : u.mi = [] := eq_nil_of_length_eq_zero (by omega)
    have hqueue : u.work.queue = [] := eq_nil_of_length_eq_zero (by omega)
    simp [ScorePass.done, hmi, hqueue]
  · cases he
  · cases he

/-- **The block is made by offers**: `CreateNewBlock` does not run out of turns, and its template
is that of an assembler with every property that offers keep. -/
theorem createNewBlock_meets (params : CChainParams) (first : FirstTxs) (header : CBlock)
    (hstart : P (.start (first.vtx params c.nHeight))) :
    (createNewBlock ops H c pool params first header).Meets (· ≠ noTurnLeft)
      fun template => ∃ s, P s ∧ template = s.template first.fProofOfStake header :=
  (addPriorityTxs_meets hoffer hstart).bind fun _ hs =>
    (addScoreTxs_meets hoffer hs).map fun t ht => ⟨t, ht, rfl⟩

end

end Passion
