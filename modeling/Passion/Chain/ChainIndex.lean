import Mathlib.Data.Prod.Lex
import Passion.Chain.StakeModifier
import Passion.Common.MachineNumber
import Passion.Common.Worklist

/-!
# The block index in memory

The globals of `validation.cpp` by which the node chooses its chain, and the function that fills
them: `ReceivedBlockTransactions`, which takes note of the data of a block. Where the source
compares pointers to entries, the address of an entry is part of the state.
-/

namespace Passion

open MachineNumber

/-! ## The state -/

/-- Addresses in the order of the hashes. -/
def hashAddress : Uint256 ↪ ℕ := ⟨BaseUint.toNat, fun _ _ => BaseUint.toNat_injective⟩

/-- What the node keeps for the choice of its chain, beside the tree and the chain itself. -/
structure Selection where
  /-- The set is ordered by `CBlockIndexWorkComparator`. -/
  setBlockIndexCandidates : List Uint256 := []
  /-- A pair for each block that waits for its parent: the parent and the block. -/
  mapBlocksUnlinked : List (Uint256 × Uint256) := []
  pindexBestInvalid : Option Uint256 := none
  nBlockSequenceId : ℕ := 1
  /-- Where the entry of a block is in memory. -/
  address : Uint256 ↪ ℕ := hashAddress

/-- **The block index in memory.** -/
structure ChainIndex extends BlockTree, Selection where
  /-- `chainActive`, by height. -/
  chainActive : List Uint256

instance : CoeOut ChainIndex BlockMap := ⟨fun I => I.mapBlockIndex⟩

/-- `IsValid`. -/
def CBlockIndex.isValid (p : CBlockIndex) (nUpTo : ℕ) : Bool :=
  !p.nStatus.failed && decide (nUpTo ≤ p.nStatus.valid)

namespace ChainIndex

variable (I : ChainIndex)

/-- There is the entry `p` for a hash. -/
abbrev Has (hash : Uint256) (p : CBlockIndex) : Prop := I.mapBlockIndex.lookup hash = some p

abbrev IsTree : Prop := I.mapBlockIndex.IsTree

/-- `chainActive.Tip()`. -/
def chainTip : Option CBlockIndex := I.chainActive.getLast?.bind I.mapBlockIndex.lookup

/-- `chainActive.Contains(pindex)`. -/
def chainContains (pindex : CBlockIndex) : Bool :=
  decide (0 ≤ pindex.nHeight) && I.chainActive[pindex.nHeight.toNat]? == some pindex.hashBlock

/-- `CBlockIndexWorkComparator`. -/
def workLess (pa pb : CBlockIndex) : Bool :=
  -- First sort by most total work, ...
  if pa.nChainWork.gt pb.nChainWork then false
  else if pa.nChainWork.lt pb.nChainWork then true
  -- ... then by earliest time received, ...
  else if pa.nSequenceId < pb.nSequenceId then false
  else if pa.nSequenceId > pb.nSequenceId then true
  -- ... and last by the address.
  else if I.address pa.hashBlock < I.address pb.hashBlock then false
  else if I.address pa.hashBlock > I.address pb.hashBlock then true
  else false

/-- The place of an entry in the order of the comparator. -/
def rank (p : CBlockIndex) : ℕ ×ₗ (ℕᵒᵈ ×ₗ ℕᵒᵈ) :=
  toLex (p.nChainWork.toNat, toLex (OrderDual.toDual p.nSequenceId,
    OrderDual.toDual (I.address p.hashBlock)))

/-- **The comparator is a linear order** of the entries: it compares their ranks. -/
theorem workLess_iff (pa pb : CBlockIndex) : I.workLess pa pb = true ↔ I.rank pa < I.rank pb := by
  unfold workLess rank
  simp only [Prod.Lex.toLex_lt_toLex, OrderDual.toDual_lt_toDual, BaseUint.gt_iff, BaseUint.lt_iff,
    OrderDual.toDual_inj]
  split_ifs <;> simp only [false_iff, true_iff] <;> omega

/-- Entries of one rank are of one block. -/
theorem hashBlock_eq_of_rank_eq {pa pb : CBlockIndex} (h : I.rank pa = I.rank pb) :
    pa.hashBlock = pb.hashBlock := by
  unfold rank at h
  simp only [EmbeddingLike.apply_eq_iff_eq, Prod.mk.injEq] at h
  exact h.2.2

/-- An entry is put into the set of candidates. -/
def insertCandidate (hash : Uint256) : ChainIndex :=
  { I with setBlockIndexCandidates := I.setBlockIndexCandidates.insert hash }

/-! ## `ReceivedBlockTransactions` -/

/-- The amount a transaction moves into the Sapling pool: the sign of the balance is
inverted. -/
def saplingChange (tx : CTransaction) : ℤ := -((tx.sapData.map (·.valueBalance)).getD 0)

/-- **The change of the Sapling pool over a block**: minus the value balance, summed up over
the shielded transactions. -/
def saplingPoolChange (block : CBlock) : ℤ :=
  ((block.vtx.filter (·.isShieldedTx)).map saplingChange).sum

/-- The loop of `ReceivedBlockTransactions` over the transactions, in `CAmount`. -/
def saplingValue (block : CBlock) : ℤ :=
  block.vtx.foldl (fun saplingValue tx =>
    if tx.isShieldedTx then toInt64 (saplingValue + saplingChange tx) else saplingValue) 0

theorem saplingValue_eq (block : CBlock) :
    saplingValue block = toInt64 (saplingPoolChange block) := by
  have hloop : ∀ (vtx : List CTransaction) n, vtx.foldl (fun saplingValue tx =>
        if tx.isShieldedTx then toInt64 (saplingValue + saplingChange tx) else saplingValue)
        (toInt64 n) =
      toInt64 (n + ((vtx.filter (·.isShieldedTx)).map saplingChange).sum) := by
    intro vtx
    induction vtx with
    | nil => simp
    | cons tx vtx ih =>
      intro n
      rw [List.foldl_cons]
      cases htx : tx.isShieldedTx with
      | true =>
        simp only [htx, if_true, toInt64_toInt64_add, List.filter_cons_of_pos, List.map_cons,
          List.sum_cons]
        rw [ih, add_assoc]
      | false => simpa [htx] using ih n
  have h := hloop block.vtx 0
  rwa [zero_add] at h

end ChainIndex

open ChainIndex

/-- `SetChainSaplingValue`. -/
def CBlockIndex.setChainSaplingValue (m : BlockMap) (p : CBlockIndex) : Option ℤ :=
  match p.prev m with
  | some pprev => pprev.nChainSaplingValue.map fun v => toInt64 (v + p.nSaplingValue)
  | none => some p.nSaplingValue

/-- The entry of a block whose data has arrived, before it is linked to its parent. -/
def CBlockIndex.received (block : CBlock) (p : CBlockIndex) : CBlockIndex :=
  { p with
    fProofOfStake := p.fProofOfStake || block.isProofOfStake
    nTx := block.vtx.length % 2 ^ 32
    nChainTx := 0
    nSaplingValue := saplingValue block
    nChainSaplingValue := none
    nStatus := { p.nStatus with haveData := true }.raise BlockStatus.BLOCK_VALID_TRANSACTIONS }

/-- The entry linked to its parent, whose number of transactions is known by now. -/
def CBlockIndex.linked (m : BlockMap) (nSequenceId : ℕ) (p : CBlockIndex) : CBlockIndex :=
  { p with
    nChainTx := (((p.prev m).map (·.nChainTx)).getD 0 + p.nTx) % 2 ^ 32
    nChainSaplingValue := p.setChainSaplingValue m
    nSequenceId := nSequenceId }

namespace ChainIndex

/-- The body of the loop of `ReceivedBlockTransactions` for one entry of the queue. -/
def linkBlock (hash : Uint256) (I : ChainIndex) : ChainIndex :=
  match I.mapBlockIndex.lookup hash with
  | none => I
  | some p =>
    let pindex := p.linked I.mapBlockIndex I.nBlockSequenceId
    let I := { I with
      mapBlockIndex := I.mapBlockIndex.insert hash pindex
      nBlockSequenceId := (I.nBlockSequenceId + 1) % 2 ^ 32 }
    if I.chainTip.any fun tip => I.workLess pindex tip then I else I.insertCandidate hash

/-- The loop of `ReceivedBlockTransactions`: the entry and the descendants that wait for it
are linked, breadth first. -/
def linkBlocks (hash : Uint256) (I : ChainIndex) : ChainIndex :=
  let r := Worklist.drain linkBlock (I.mapBlocksUnlinked.length + 1) [hash]
    I.mapBlocksUnlinked I
  { r.2 with mapBlocksUnlinked := r.1 }

/-- `ReceivedBlockTransactions`. -/
def receivedBlockTransactions (block : CBlock) (hash : Uint256) (I : ChainIndex) : ChainIndex :=
  match I.mapBlockIndex.lookup hash with
  | none => I
  | some p =>
    let pindexNew := p.received block
    let I := { I with mapBlockIndex := I.mapBlockIndex.insert hash pindexNew }
    match pindexNew.prev I.mapBlockIndex with
    | none => linkBlocks hash I
    | some pprev =>
      if pprev.nChainTx ≠ 0 then linkBlocks hash I
      else if pprev.isValid BlockStatus.BLOCK_VALID_TREE then
        { I with mapBlocksUnlinked := I.mapBlocksUnlinked ++ [(pprev.hashBlock, hash)] }
      else I

end ChainIndex

end Passion
