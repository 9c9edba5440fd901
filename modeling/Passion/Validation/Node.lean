import Passion.Chain.ChainIndex
import Passion.Coins.Interface
import Passion.Consensus.Targets
import Passion.Staking.Kernel

/-!
# The state of the node

The globals of `validation.cpp` that block validation reads: the block tree, the active
chain, the block and undo files, the coins at the tip, the mempool and the transaction
index, and a few settings. A file position is the hash of the index entry that holds it.
Locks, statistics and the writing of dirty entries are left out.
-/

namespace Passion

/-- The node. -/
structure NodeState where
  tree : BlockTree
  /-- `chainActive`, by height. -/
  chainActive : List Uint256
  selection : Selection := {}
  /-- The block files. -/
  blockFiles : AList fun _ : Uint256 => CBlock
  /-- The undo files: the bytes from the position of an undo record on. -/
  undoFiles : AList fun _ : Uint256 => Bytes
  pcoinsTip : CCoinsViewCache
  mempool : List CTransaction
  /-- The transaction index, if `fTxIndex`: the block and the transaction found there. -/
  txIndex : Option (AList fun _ : Uint256 => Uint256 × CTransaction)
  /-- `IsInitialBlockDownload()`. -/
  fInitialBlockDownload : Bool
  /-- `IsBlockchainSynced()`. -/
  fBlockchainSynced : Bool
  /-- `GetAdjustedTime()`. -/
  nAdjustedTime : ℤ
  /-- `IsSporkActive(SPORK_19_COLDSTAKING_MAINTENANCE)`. -/
  fColdStakingMaintenance : Bool
  /-- `GetSporkValue(SPORK_20_SAPLING_MAINTENANCE)`. -/
  nSaplingMaintenance : ℤ
  /-- `-maxreorg`. -/
  nMaxReorgDepth : ℤ
  /-- `Checkpoints::fEnabled`. -/
  fCheckpointsEnabled : Bool
  nScriptCheckThreads : ℕ
  /-- `consensus.nPassionBadBlockTime`, which no network sets. -/
  nPassionBadBlockTime : UInt32
  /-- `consensus.nPassionBadBlockBits`, which no network sets. -/
  nPassionBadBlockBits : UInt32

namespace NodeState

/-- A node that has stored nothing yet, with the default settings. -/
def fresh : NodeState where
  tree := ⟨∅, none⟩
  chainActive := []
  blockFiles := ∅
  undoFiles := ∅
  pcoinsTip := .onBase (.db ⟨∅, ∅, [], BaseUint.zero, none⟩)
  mempool := []
  txIndex := none
  fInitialBlockDownload := true
  fBlockchainSynced := false
  nAdjustedTime := 0
  fColdStakingMaintenance := false
  nSaplingMaintenance := 4070908800
  nMaxReorgDepth := 100
  fCheckpointsEnabled := true
  nScriptCheckThreads := 0
  nPassionBadBlockTime := 0
  nPassionBadBlockBits := 0

/-- The index entry of a genesis block of which only the hash matters. -/
def genesisIndex (params : CChainParams) : CBlockIndex :=
  let hash := params.consensus.hashGenesisBlock
  .ofBlock hash ⟨1, BaseUint.zero, BaseUint.zero, 0, 0, 0, BaseUint.zero, [], [], false⟩

/-- A node that has connected the genesis block and nothing else. -/
def atGenesis (params : CChainParams) : NodeState :=
  let hash := params.consensus.hashGenesisBlock
  { fresh with
    tree := ⟨AList.singleton hash (genesisIndex params), some hash⟩
    chainActive := [hash]
    pcoinsTip := .onBase (.db ⟨∅, ∅, [], hash, none⟩) }

/-! A chain on the main network, of which only the index is known. -/

/-- The hash of the block at a height. -/
def heightHash (k : ℕ) : Uint256 :=
  if k = 0 then mainParams.consensus.hashGenesisBlock else BaseUint.ofNat (2 ^ 64 + k)

theorem heightHash_toNat {k : ℕ} (h : k < 2 ^ 32) :
    (heightHash k).toNat =
      if k = 0 then mainParams.consensus.hashGenesisBlock.toNat else 2 ^ 64 + k := by
  unfold heightHash
  split
  · rfl
  · rw [BaseUint.toNat_ofNat, Nat.mod_eq_of_lt (by omega)]

theorem heightHash_injective {k j : ℕ} (hk : k < 2 ^ 32) (hj : j < 2 ^ 32)
    (h : heightHash k = heightHash j) : k = j := by
  have hnat := congrArg BaseUint.toNat h
  have hgenesis : 2 ^ 65 < mainParams.consensus.hashGenesisBlock.toNat := by decide
  rw [heightHash_toNat hk, heightHash_toNat hj] at hnat
  split at hnat <;> split at hnat <;> omega

/-- The entry of the block at a height: one block a minute, all with the same bits. -/
def heightIndex (k : ℕ) : CBlockIndex :=
  { genesisIndex mainParams with
    hashBlock := heightHash k
    pprev := if k = 0 then none else some (heightHash (k - 1))
    nHeight := k
    nTime := UInt32.ofNat (60 * k)
    nBits := 0x1e0fffff }

/-- The entries up to a height, the last one first. -/
def heightMap (n : Fin (2 ^ 32)) : BlockMap where
  entries := (List.range (n + 1)).reverse.map fun k => ⟨heightHash k, heightIndex k⟩
  nodupKeys := by
    rw [List.NodupKeys, List.keys, List.map_map]
    refine List.Nodup.map_on (fun k hk j hj h => ?_) (List.nodup_reverse.mpr List.nodup_range)
    have hn := n.isLt
    simp only [List.mem_reverse, List.mem_range] at hk hj
    exact heightHash_injective (by omega) (by omega) h

/-- A block that can be run by hand, with an empty Sapling tree. -/
def sampleBlock (hashPrevBlock : Uint256) (nTime : UInt32) (vtx : List CTransaction)
    (vchBlockSig : Bytes) : CBlock where
  nVersion := 8
  hashPrevBlock := hashPrevBlock
  hashMerkleRoot := (computeMerkleRoot sampleEnv.toHashing
    (vtx.map (·.getHash sampleEnv.toHashing))).1
  nTime := nTime
  nBits := 0x1e0fffff
  nNonce := 0
  hashFinalSaplingRoot := SaplingMerkleTree.emptyRoot sampleEnv
  vtx := vtx
  vchBlockSig := vchBlockSig
  fChecked := false

/-- A node whose active chain has that height. -/
def atHeight (n : Fin (2 ^ 32)) : NodeState :=
  { fresh with
    tree := ⟨heightMap n, some (heightHash n)⟩
    chainActive := (List.range (n + 1)).map heightHash
    nAdjustedTime := 60 * (n + 1) }

variable (N : NodeState)

/-- `mapBlockIndex`. -/
abbrev mapBlockIndex : BlockMap := N.tree.mapBlockIndex

/-- The block index in memory. -/
def index : ChainIndex :=
  { N.tree, N.selection with chainActive := N.chainActive }

/-- The node with another block index. -/
def setIndex (I : ChainIndex) : NodeState :=
  { N with tree := I.toBlockTree, selection := I.toSelection, chainActive := I.chainActive }

/-! ## The active chain -/

/-- `chainActive[nHeight]`. -/
def chainAt (nHeight : ℤ) : Option CBlockIndex :=
  if nHeight < 0 then none
  else (N.chainActive[nHeight.toNat]?).bind N.mapBlockIndex.lookup

/-- `chainActive.Tip()`. -/
def chainTip : Option CBlockIndex := N.chainActive.getLast?.bind N.mapBlockIndex.lookup

/-- `chainActive.Height()`. -/
def chainHeight : ℤ := N.chainActive.length - 1

/-- `chainActive.Contains(pindex)`. -/
def chainContains (pindex : CBlockIndex) : Bool :=
  decide (0 ≤ pindex.nHeight) &&
    N.chainActive[pindex.nHeight.toNat]? == some pindex.hashBlock

/-! ## Checkpoints -/

variable (params : CChainParams)

/-- `Checkpoints::CheckBlock`. -/
def checkpointsCheckBlock (nHeight : ℤ) (hash : Uint256) (fMatchesCheckpoint : Bool) : Bool :=
  if !N.fCheckpointsEnabled then true
  else match params.mapCheckpoints.lookup nHeight with
    | none => !fMatchesCheckpoint
    | some h => hash == h

/-- `Checkpoints::GetTotalBlocksEstimate`. -/
def getTotalBlocksEstimate : ℤ :=
  if !N.fCheckpointsEnabled then 0
  else (params.mapCheckpoints.getLast?.map (·.1)).getD 0

/-- `Checkpoints::GetLastCheckpoint`. -/
def getLastCheckpoint : Option CBlockIndex :=
  if !N.fCheckpointsEnabled then none
  else params.mapCheckpoints.reverse.findSome? fun c => N.mapBlockIndex.lookup c.2

/-! ## Blocks and transactions on disk -/

/-- `ReadBlockFromDisk(block, pindex)`. -/
def readBlockFromDisk (H : Hashing) (pindex : CBlockIndex) : Option CBlock :=
  match N.blockFiles.lookup pindex.hashBlock with
  | none => none
  | some block =>
    if block.isProofOfWork && !checkProofOfWork params (block.getHash H) block.nBits then none
    else if block.getHash H ≠ pindex.hashBlock then none
    else some block

/-- The slow path of `GetTransaction`: a coin of the transaction tells the height of its
block, which is scanned. -/
def getTransactionSlow (H : Hashing) (hash : Uint256) : Option (CTransaction × Uint256) :=
  match (accessByTxid hash).run N.pcoinsTip with
  | .error _ => none
  | .ok (coin, _) =>
    if coin.isSpent then none
    else (N.chainAt coin.nHeight).bind fun pindexSlow =>
      (N.readBlockFromDisk params H pindexSlow).bind fun block =>
        (block.vtx.find? fun tx => tx.getHash H == hash).map fun tx => (tx, pindexSlow.hashBlock)

/-- `GetTransaction(hash, txOut, hashBlock, true)`: the transaction and `hashBlock`, which
stays zero for one from the mempool. -/
def getTransaction (H : Hashing) (hash : Uint256) : Option (CTransaction × Uint256) :=
  match N.mempool.find? fun tx => tx.getHash H == hash with
  | some tx => some (tx, BaseUint.zero)
  | none =>
    match N.txIndex with
    | some table =>
      (table.lookup hash).bind fun (hashBlock, tx) =>
        if tx.getHash H ≠ hash then none else some (tx, hashBlock)
    | none => N.getTransactionSlow params H hash

end NodeState

end Passion
