import Passion.Coins.Refinement
import Passion.Common.Ledger
import Passion.Validation.AcceptBlock

/-!
# The stake of a block on a fork

`AcceptBlock` has the coins of the active tip only. For a block on another branch it walks
back to the point where the branch leaves the active chain and refuses an input that a block
on the way spends; the coins of the tip are not asked then. What the stake has to be, an
output that is unspent after the blocks of its own branch, is the UTXO set of that branch.
-/

namespace Passion

open List Except Persistent NodeState CCoinsViewCache

/-! ## The UTXO set of a branch -/

/-- What a transaction does to the UTXO set. -/
def CTransaction.action (H : Hashing) (tx : CTransaction) : LedgerAction COutPoint where
  spends := if tx.isCoinBase then ∅ else (tx.vin.map (·.prevout)).toFinset
  creates := (((tx.outputs H).filter fun p =>
    !CScript.isUnspendable p.2.scriptPubKey).map Prod.fst).toFinset

namespace NodeState

variable (H : Hashing) (params : CChainParams) (N : NodeState)

/-- The transactions of an entry of the index, as actions. -/
def actionsOf (p : CBlockIndex) : List (LedgerAction COutPoint) :=
  ((N.blockFiles.lookup p.hashBlock).map fun b => b.vtx.map (·.action H)).getD []

/-- The UTXO set after the blocks of a list of entries, the last one first. The transactions of
the genesis block are not connected. -/
def utxoAfter : List CBlockIndex → Finset COutPoint
  | [] => ∅
  | p :: ps =>
    if p.hashBlock = params.consensus.hashGenesisBlock then ∅
    else LedgerAction.run (utxoAfter ps) (N.actionsOf H p)

/-- **The chain state of a block**: what is unspent after it and all its ancestors. -/
def utxo (p : CBlockIndex) : Finset COutPoint :=
  N.utxoAfter H params (p.ancestors N.mapBlockIndex)

/-- The part of the branch of a block that is not in the active chain. -/
def branchOf (p : CBlockIndex) : List CBlockIndex :=
  (p.ancestors N.mapBlockIndex).takeWhile fun q => !N.chainContains q

/-- The part of the branch from the point on at which it leaves the active chain. -/
def commonOf (p : CBlockIndex) : List CBlockIndex :=
  (p.ancestors N.mapBlockIndex).dropWhile fun q => !N.chainContains q

/-- **A consistent node**: the index is closed under parents, the genesis block is in the active
chain, and the coins are those that are unspent at the tip. -/
structure Consistent (E : Env) (params : CChainParams) (N : NodeState) : Prop where
  keys : ∀ hash p, N.mapBlockIndex.lookup hash = some p → p.hashBlock = hash
  closed : ∀ hash p, N.mapBlockIndex.lookup hash = some p → ∀ q ∈ p.pprev, q ∈ N.mapBlockIndex
  genesis : ∀ p, N.mapBlockIndex.lookup params.consensus.hashGenesisBlock = some p →
    N.chainContains p = true
  sound : N.pcoinsTip.Sound E
  coins : ∀ tip, N.chainTip = some tip → ∀ o,
    ((N.pcoinsTip.state E).coins o).isSome = true ↔ o ∈ N.utxo E.toHashing params tip

end NodeState

/-- What is done to the active chain keeps a property of the node. -/
def ChainOps.Preserves (ops : ChainOps) (P : NodeState → Prop) : Prop :=
  (∀ pindex N, P N → P (ops.reconsiderBlock pindex N).2) ∧
    ∀ pblock N, P N → P (exec (ops.activateBestChain pblock) N).2

/-- The inputs of the coinstake. -/
def CBlock.stakeInputs (block : CBlock) : List CTxIn :=
  match block.vtx with
  | _ :: cs :: _ => cs.vin
  | _ => []

/-- **No fake stake**: every coinstake input is unspent in the chain state of the parent. -/
structure NodeState.StakeUnspent (H : Hashing) (params : CChainParams) (N : NodeState)
    (block : CBlock) (pindexPrev : CBlockIndex) : Prop where
  mem : ∀ txin ∈ block.stakeInputs, txin.prevout ∈ N.utxo H params pindexPrev

instance {H : Hashing} {params : CChainParams} {N : NodeState} {block : CBlock}
    {pindexPrev : CBlockIndex} : Decidable (N.StakeUnspent H params block pindexPrev) :=
  decidable_of_iff (∀ txin ∈ block.stakeInputs, txin.prevout ∈ N.utxo H params pindexPrev)
    ⟨fun h => ⟨h⟩, fun h => h.mem⟩

/-- An output is created by a block of the branch. -/
def NodeState.CreatedOn (H : Hashing) (N : NodeState) (branch : List CBlockIndex) (o : COutPoint) :
    Prop :=
  ∃ p ∈ branch, ∃ a ∈ N.actionsOf H p, o ∈ a.creates

/-- Every coinstake input is unspent where the branch of the parent leaves the active chain, or
is created on the branch. -/
structure NodeState.StakeFromSplit (H : Hashing) (params : CChainParams) (N : NodeState)
    (block : CBlock) (pindexPrev : CBlockIndex) : Prop where
  mem : ∀ txin ∈ block.stakeInputs,
    txin.prevout ∈ N.utxoAfter H params (N.commonOf pindexPrev) ∨
      N.CreatedOn H (N.branchOf pindexPrev) txin.prevout

variable {ops : ChainOps} {E : Env} {params : CChainParams} {literal : UInt64}
variable {N N₁ N₂ N' : NodeState} {block : CBlock}

/-! ## The ancestors of an entry -/

/-- The walk meets the entry itself and entries of the map. -/
theorem CBlockIndex.mem_walkBack {m : BlockMap} {n : ℕ} {p q : CBlockIndex}
    (h : q ∈ p.walkBack m n) : q = p ∨ ∃ hash, m.lookup hash = some q := by
  induction n generalizing p with
  | zero => exact .inl (by simpa [walkBack] using h)
  | succ n ih =>
    unfold walkBack at h
    cases hprev : p.prev m with
    | none => exact .inl (by simpa [hprev] using h)
    | some r =>
      simp only [hprev, mem_cons] at h
      rcases h with rfl | h
      · exact .inl rfl
      · obtain ⟨hash, -, hlook⟩ := Option.bind_eq_some_iff.mp hprev
        rcases ih h with rfl | hmem
        · exact .inr ⟨hash, hlook⟩
        · exact .inr hmem

/-- New entries do not change the ancestors of an entry of a closed index. -/
theorem CBlockIndex.walkBack_congr {m m' : BlockMap}
    (hclosed : ∀ hash p, m.lookup hash = some p → ∀ q ∈ p.pprev, q ∈ m)
    (hsame : ∀ hash ∈ m, m'.lookup hash = m.lookup hash) {p : CBlockIndex}
    (hp : ∀ q ∈ p.pprev, q ∈ m) (n : ℕ) : p.walkBack m' n = p.walkBack m n := by
  induction n generalizing p with
  | zero => rfl
  | succ n ih =>
    have hprev : p.prev m' = p.prev m := by
      unfold prev
      cases hpp : p.pprev with
      | none => rfl
      | some q => exact hsame q (hp q (by simp [hpp]))
    unfold walkBack
    rw [hprev]
    cases hr : p.prev m with
    | none => rfl
    | some r =>
      obtain ⟨hash, -, hlook⟩ := Option.bind_eq_some_iff.mp hr
      dsimp only
      rw [ih (hclosed hash r hlook)]

/-! ## What the walk has seen -/

variable {H : Hashing} {inputs : List CTxIn} {txin : CTxIn}

theorem readBlockFromDisk_eq_some {p : CBlockIndex} {bl : CBlock}
    (h : N.readBlockFromDisk params H p = some bl) : N.blockFiles.lookup p.hashBlock = some bl := by
  unfold readBlockFromDisk at h
  cases hl : N.blockFiles.lookup p.hashBlock with
  | none =>
    simp only [hl] at h
    cases h
  | some b =>
    simp only [hl] at h
    split at h
    · cases h
    · split at h
      · cases h
      · exact h

/-- **What the walk back to the split has established**: every block on the way is not in the
active chain and spends none of the inputs. -/
theorem forkWalk_eq_ok {readBlock : ℤ} {l : List CBlockIndex}
    {split : CBlockIndex} (h : forkWalk E params N inputs readBlock l = .ok split) :
    ∃ branch rest, l = branch ++ split :: rest ∧ N.chainContains split = true ∧
      ∀ p ∈ branch, N.chainContains p = false ∧
        ∃ bl, N.blockFiles.lookup p.hashBlock = some bl ∧ spendsAny bl inputs = false := by
  induction l generalizing readBlock with
  | nil => cases h
  | cons prev ancestors ih =>
    unfold forkWalk at h
    cases hread : N.readBlockFromDisk params E prev with
    | none =>
      simp only [hread] at h
      cases h
    | some bl =>
      simp only [hread] at h
      split at h
      · rename_i hin
        cases h
        exact ⟨[], ancestors, rfl, hin, fun p hp => by cases hp⟩
      · rename_i hout
        obtain ⟨-, h⟩ := guard_eq_ok.mp h
        obtain ⟨hspends, h⟩ := guard_eq_ok.mp h
        obtain ⟨branch, rest, rfl, hsplit, hbranch⟩ := ih h
        refine ⟨prev :: branch, rest, rfl, hsplit, fun p hp => ?_⟩
        rcases mem_cons.mp hp with rfl | hp
        · exact ⟨by simpa using hout, bl, readBlockFromDisk_eq_some hread, by simpa using hspends⟩
        · exact hbranch p hp

/-- An input that no transaction of a block names is not spent by the block. -/
theorem notMem_spends_of_spendsAny {bl : CBlock}
    (h : spendsAny bl inputs = false) (hin : txin ∈ inputs)
    {tx : CTransaction} (htx : tx ∈ bl.vtx) : txin.prevout ∉ (tx.action H).spends := by
  intro hmem
  have hspends : txin.prevout ∈ tx.vin.map (·.prevout) := by
    unfold CTransaction.action at hmem
    split at hmem
    · simp at hmem
    · simpa using hmem
  obtain ⟨other, hother, heq⟩ := mem_map.mp hspends
  have hany : spendsAny bl inputs = true := by
    simp only [spendsAny, any_eq_true, beq_iff_eq]
    exact ⟨tx, htx, other, hother, txin, hin, heq.symm⟩
  rw [h] at hany
  cases hany

/-- **The UTXO set along a branch that does not spend an output.** -/
theorem mem_utxoAfter_append {branch common : List CBlockIndex} {o : COutPoint}
    (hgenesis : ∀ p ∈ branch, p.hashBlock ≠ params.consensus.hashGenesisBlock)
    (hspends : ∀ p ∈ branch, ∀ a ∈ N.actionsOf H p, o ∉ a.spends) :
    o ∈ N.utxoAfter H params (branch ++ common) ↔
      o ∈ N.utxoAfter H params common ∨ N.CreatedOn H branch o := by
  induction branch with
  | nil => simp [CreatedOn]
  | cons p ps ih =>
    have hrest := ih (fun q hq => hgenesis q (by simp [hq])) fun q hq => hspends q (by simp [hq])
    rw [cons_append, utxoAfter, if_neg (hgenesis p (by simp)),
      LedgerAction.mem_run_of_unspent (hspends p (by simp)), hrest]
    simp only [CreatedOn, mem_cons, exists_eq_or_imp]
    exact or_assoc.trans (or_congr_right or_comm)

/-! ## The checks of the stake -/

variable {pindexPrev : CBlockIndex}

/-- The inputs that `AcceptBlock` checks. -/
theorem checkStakeInputs_eq_ok (h : checkStakeInputs E params N block (some pindexPrev) = .ok ()) :
    checkFork E params N block.stakeInputs (some pindexPrev) = .ok () ∧
      checkStakeCoins N block.stakeInputs (some pindexPrev) = .ok () := by
  unfold checkStakeInputs at h
  split at h
  · next cb cs rest hvtx =>
    have hinputs : block.stakeInputs = cs.vin := by simp [CBlock.stakeInputs, hvtx]
    obtain ⟨-, h⟩ := guard_eq_ok.mp h
    obtain ⟨_, hfork, hcoins⟩ := bind_eq_ok.mp h
    rw [hinputs]
    exact ⟨hfork, hcoins⟩
  · cases h

/-- On top of the tip every input is a coin of the tip. -/
theorem isSome_of_checkStakeCoins (hsound : N.pcoinsTip.Sound E)
    (htip : N.chainActive.getLast? = some pindexPrev.hashBlock)
    (h : checkStakeCoins N inputs (some pindexPrev) = .ok ()) (hin : txin ∈ inputs) :
    ((N.pcoinsTip.state E).coins txin.prevout).isSome = true := by
  have hover : (onBase N.pcoinsTip.toView).Sound E :=
    sound_onBase (sound_toView.mpr hsound)
  obtain ⟨hcoin, -⟩ := accessCoin_spec hover txin.prevout
  have hone := forM_eq_ok.mp h txin hin
  have hfork : isBlockFromFork N (some pindexPrev) = false := by simp [isBlockFromFork, htip]
  have hrun : (CoinsView.accessCoin txin.prevout).run (onBase N.pcoinsTip.toView) =
        .ok ((onBase N.pcoinsTip.toView).accessCoin txin.prevout) := rfl
  rw [hrun] at hone
  dsimp only at hone
  obtain ⟨hspent, -⟩ := guard_eq_ok.mp hone
  rw [hfork, hcoin] at hspent
  cases hc : (N.pcoinsTip.state E).coins txin.prevout with
  | some c => rfl
  | none => simp [hc] at hspent

/-- **The stake of an accepted block, in the state its checks are made in**: it is unspent after
the parent, or the block is from a fork and the walk has seen no spend. -/
theorem stake_of_checkStakeInputs (hN : N.Consistent E params)
    (hprev : N.mapBlockIndex.lookup pindexPrev.hashBlock = some pindexPrev)
    (h : checkStakeInputs E params N block (some pindexPrev) = .ok ())
    (hin : txin ∈ block.stakeInputs) :
    txin.prevout ∈ N.utxo E params pindexPrev ↔
      (N.chainActive.getLast? = some pindexPrev.hashBlock ∨
        txin.prevout ∈ N.utxoAfter E params (N.commonOf pindexPrev) ∨
        N.CreatedOn E (N.branchOf pindexPrev) txin.prevout) := by
  obtain ⟨hfork, hcoins⟩ := checkStakeInputs_eq_ok h
  by_cases htip : N.chainActive.getLast? = some pindexPrev.hashBlock
  · have hchainTip : N.chainTip = some pindexPrev := by
      rw [chainTip, htip, Option.bind_some, hprev]
    have hsome := isSome_of_checkStakeCoins hN.sound htip hcoins hin
    exact iff_of_true ((hN.coins pindexPrev hchainTip txin.prevout).mp hsome) (.inl htip)
  · -- On a fork the parent's ancestors split into the branch and the common part.
    unfold checkFork at hfork
    dsimp only at hfork
    rw [if_pos (by simpa using htip)] at hfork
    cases hwalk : forkWalk E params N block.stakeInputs 0
        (pindexPrev.ancestors N.mapBlockIndex) with
    | error e =>
      rw [hwalk] at hfork
      cases hfork
    | ok split =>
      obtain ⟨branch, rest, hsplit, hin', hbranch⟩ := forkWalk_eq_ok hwalk
      have hnot : ∀ p ∈ branch, (!N.chainContains p) = true := fun p hp => by
        simp [(hbranch p hp).1]
      have htake : N.branchOf pindexPrev = branch := by
        rw [branchOf, hsplit, takeWhile_append_of_pos hnot]
        simp [hin']
      have hdrop : N.commonOf pindexPrev = split :: rest := by
        rw [commonOf, hsplit, dropWhile_append_of_pos hnot]
        simp [hin']
      have hgenesis : ∀ p ∈ branch, p.hashBlock ≠ params.consensus.hashGenesisBlock := by
        intro p hp heq
        have hmem : p ∈ pindexPrev.ancestors N.mapBlockIndex := by simp [hsplit, hp]
        have hlook : N.mapBlockIndex.lookup p.hashBlock = some p := by
          rcases CBlockIndex.mem_walkBack hmem with rfl | ⟨hash, hhash⟩
          · exact hprev
          · rw [hN.keys hash p hhash, hhash]
        have := hN.genesis p (heq ▸ hlook)
        rw [(hbranch p hp).1] at this
        cases this
      have hspends : ∀ p ∈ branch, ∀ a ∈ N.actionsOf E p, txin.prevout ∉ a.spends := by
        intro p hp a ha
        obtain ⟨-, bl, hbl, hany⟩ := hbranch p hp
        rw [actionsOf, hbl] at ha
        obtain ⟨tx, htx, rfl⟩ := mem_map.mp ha
        exact notMem_spends_of_spendsAny hany hin htx
      rw [or_iff_right htip, htake, hdrop, utxo, hsplit]
      exact mem_utxoAfter_append hgenesis hspends

/-! ## From the state in which the parent was found -/

theorem forkWalk_tree {tree : BlockTree} {readBlock : ℤ} {l : List CBlockIndex} :
    forkWalk E params { N with tree := tree } inputs readBlock l =
      forkWalk E params N inputs readBlock l := by
  induction l generalizing readBlock with
  | nil => rfl
  | cons prev ancestors ih =>
    unfold forkWalk
    rw [ih]
    rfl

/-- The checks read the index only for the ancestors of the parent. -/
theorem checkStakeInputs_tree (tree : BlockTree)
    (hsame : pindexPrev.ancestors tree.mapBlockIndex = pindexPrev.ancestors N.mapBlockIndex) :
    checkStakeInputs E params { N with tree := tree } block (some pindexPrev) =
      checkStakeInputs E params N block (some pindexPrev) := by
  have hfork : ∀ inputs, checkFork E params { N with tree := tree } inputs (some pindexPrev) =
      checkFork E params N inputs (some pindexPrev) := by
    intro inputs
    unfold checkFork
    dsimp only
    rw [forkWalk_tree, hsame]
  unfold checkStakeInputs
  simp only [hfork]
  rfl

theorem Reconsidered.preserves {P : NodeState → Prop} (h : Reconsidered ops N N₁)
    (hops : ops.Preserves P) (hN : P N) : P N₁ := by
  rcases h with rfl | ⟨pindexPrev, rfl⟩
  · exact hN
  · exact hops.2 _ _ (hops.1 _ _ hN)

/-- **What `AcceptBlock` guarantees about a stake.** For a proof-of-stake block that is stored
as new data, every coinstake input is unspent in the chain state of the parent, on the block's
own branch, exactly if the parent is the tip of the active chain, or every input is unspent
where the branch leaves the active chain or created on the branch: the spends of the common
part are not looked at. -/
theorem stakeInputs_unspent_iff (hops : ops.Preserves (NodeState.Consistent E params))
    (hN : N.Consistent E params) {pindex : CBlockIndex} (hpos : block.isProofOfStake = true)
    (h : exec (acceptBlock ops E params literal block) N = (.ok (pindex, true), N')) :
    ∃ pindexPrev N₁, exec (getPrevIndex ops E params block) N = (.ok (some pindexPrev), N₁) ∧
      (N₁.StakeUnspent E.toHashing params block pindexPrev ↔
        (N₁.chainActive.getLast? = some pindexPrev.hashBlock ∨
          N₁.StakeFromSplit E.toHashing params block pindexPrev)) := by
  obtain ⟨⟨pprev, p⟩, N₂, hindex, hdata⟩ := exec_bind_eq_ok.mp h
  obtain ⟨N₁, hprev, hstake, htree⟩ := acceptIndex_eq_ok hindex
  obtain ⟨-, -, hinputs, -⟩ := acceptData_eq_ok hdata
  -- The stake of a block without a parent is not accepted.
  cases pprev with
  | none => simp [checkStakeOf, hpos] at hstake
  | some pindexPrev =>
    refine ⟨pindexPrev, N₁, hprev, ?_⟩
    rcases getPrevIndex_eq_ok hprev with ⟨-, hno, -⟩ | ⟨hrec, hlook, -⟩
    · cases hno
    · have hN₁ := hrec.preserves hops hN
      have hkey := hN₁.keys _ _ hlook.symm
      have hchecks : checkStakeInputs E params N₁ block (some pindexPrev) = .ok () := by
        rcases htree with ⟨rfl, -⟩ | ⟨hreach, tree, hadd, rfl⟩
        · exact hinputs hpos
        · have hnew := hreach.unknown
          rw [← checkStakeInputs_tree tree]
          · exact hinputs hpos
          · refine CBlockIndex.walkBack_congr hN₁.closed (fun hash hmem => ?_)
              (hN₁.closed _ _ hlook.symm) _
            rcases addToBlockIndex_cases hadd with ⟨hknown, -⟩ | ⟨-, _, -, -, -, hlookup⟩
            · rw [hnew] at hknown
              cases hknown
            · rw [hlookup, if_neg]
              rintro rfl
              rw [← AList.lookup_isSome, hnew] at hmem
              cases hmem
      have hone := fun txin (hin : txin ∈ block.stakeInputs) =>
        stake_of_checkStakeInputs hN₁ (by rw [hkey, ← hlook]) hchecks hin
      by_cases htip : N₁.chainActive.getLast? = some pindexPrev.hashBlock
      · exact iff_of_true ⟨fun txin hin => (hone txin hin).mpr (.inl htip)⟩ (.inl htip)
      · rw [or_iff_right htip]
        have hfork := fun txin hin => (hone txin hin).trans (or_iff_right htip)
        exact ⟨fun hs => ⟨fun txin hin => (hfork txin hin).mp (hs.mem txin hin)⟩,
          fun hs => ⟨fun txin hin => (hfork txin hin).mpr (hs.mem txin hin)⟩⟩

/-! ## A fork of two blocks -/

namespace ForkExample

open NodeState

/-- An output script that pays to a public key. -/
def payToKey : CScript := 33 :: 2 :: List.replicate 32 0 ++ [Opcode.OP_CHECKSIG]

/-- A coinbase that pays 400 coins. -/
def rewardTx (scriptSig : CScript) : CTransaction := .coinbase scriptSig [⟨400 * COIN, payToKey⟩]

/-- The outpoint of its output. -/
def rewardOutpoint (scriptSig : CScript) : COutPoint :=
  ⟨(rewardTx scriptSig).getHash sampleEnv.toHashing, 0⟩

/-- The coin of its output. -/
def rewardCoin (nHeight : ℕ) : Coin := ⟨true, false, ⟨400 * COIN, payToKey⟩, nHeight⟩

/-- The block at height 1 of the active chain. -/
def block₁ : CBlock := sampleBlock mainParams.consensus.hashGenesisBlock 60 [rewardTx [0x51, 0x00]] []

/-- The hash of the block at height 1. -/
def hash₁ : Uint256 := block₁.getHash sampleEnv.toHashing

/-- The tip of the active chain, at height 2. -/
def block₂ : CBlock := sampleBlock hash₁ 120 [rewardTx [0x52, 0x00]] []

/-- The hash of the tip. -/
def hash₂ : Uint256 := block₂.getHash sampleEnv.toHashing

/-- The index entry of a block. -/
def indexOf (block : CBlock) (nHeight : ℤ) : CBlockIndex :=
  { CBlockIndex.ofBlock (block.getHash sampleEnv.toHashing) block with
    pprev := some block.hashPrevBlock, nHeight := nHeight }

/-- The node with the two blocks. -/
def node : NodeState :=
  { atGenesis mainParams with
    tree := ⟨((atGenesis mainParams).mapBlockIndex.insert hash₁ (indexOf block₁ 1)).insert hash₂
      (indexOf block₂ 2), some hash₂⟩
    chainActive := [mainParams.consensus.hashGenesisBlock, hash₁, hash₂]
    blockFiles := (AList.singleton hash₁ block₁).insert hash₂ block₂
    pcoinsTip := .onBase (.db ⟨(AList.singleton (rewardOutpoint [0x51, 0x00]) (rewardCoin 1)).insert
      (rewardOutpoint [0x52, 0x00]) (rewardCoin 2), ∅, [], hash₂, none⟩)
    nAdjustedTime := 180 }

/-- A proof-of-stake block next to the tip, which stakes the first reward and spends some more
inputs. -/
def forkBlock (more : List CTxIn) : CBlock :=
  sampleBlock hash₁ 180
    [.coinbase [0x52, 0x00] [⟨0, []⟩],
      .plain (⟨rewardOutpoint [0x51, 0x00], [], 0⟩ :: more) [⟨0, []⟩, ⟨400 * COIN, payToKey⟩]] [0]

theorem node_consistent : node.Consistent sampleEnv mainParams where
  keys := by decide +kernel
  closed := by decide +kernel
  genesis := by decide +kernel
  sound := sound_onBase (by unfold CCoinsView.Sound; decide +kernel)
  coins := by
    intro tip htip o
    have hlast : node.chainTip = some (indexOf block₂ 2) := by decide +kernel
    cases hlast.symm.trans htip
    have hutxo : node.utxo sampleEnv mainParams (indexOf block₂ 2) =
        {rewardOutpoint [0x51, 0x00], rewardOutpoint [0x52, 0x00]} := by decide +kernel
    rw [hutxo]
    change (AList.lookup o _).isSome = true ↔ _
    rw [AList.lookup_isSome, AList.mem_insert, AList.mem_keys]
    simp [or_comm]

theorem idle_preserves (P : NodeState → Prop) : ChainOps.idle.Preserves P :=
  ⟨fun _ _ h => h, fun _ _ h => h⟩

/-- The parent of a block next to the tip. -/
theorem exec_getPrevIndex_forkBlock (more : List CTxIn)
    (hgenesis : (forkBlock more).getHash sampleEnv ≠
      mainParams.consensus.hashGenesisBlock) :
    exec (getPrevIndex .idle sampleEnv mainParams (forkBlock more)) node =
      (.ok (some (indexOf block₁ 1)), node) := by
  have hlook : node.mapBlockIndex.lookup hash₁ = some (indexOf block₁ 1) := by decide +kernel
  unfold getPrevIndex
  rw [if_neg hgenesis, exec_state_bind, show (forkBlock more).hashPrevBlock = hash₁ from rfl, hlook]
  rfl

/-- The stake of the first reward is unspent in the state of the parent. -/
theorem stakeInputs_unspent_forkBlock :
    ∃ pindexPrev N₁,
      exec (getPrevIndex .idle sampleEnv mainParams (forkBlock [])) node =
        (.ok (some pindexPrev), N₁) ∧
      N₁.StakeUnspent sampleEnv.toHashing mainParams (forkBlock []) pindexPrev := by
  obtain ⟨⟨p, _⟩, hrun, rfl⟩ : ∃ r,
      (exec (acceptBlock .idle sampleEnv mainParams 0 (forkBlock [])) node).1 = .ok r ∧
        true = r.2 := by
    decide +kernel
  obtain ⟨pindexPrev, N₁, hprev, hiff⟩ := stakeInputs_unspent_iff (idle_preserves _)
    node_consistent (by decide +kernel) (exec_eq_of_fst hrun)
  have hparent := exec_getPrevIndex_forkBlock [] (by decide +kernel)
  obtain ⟨hpindex, rfl⟩ := Prod.mk.inj (hparent.symm.trans hprev)
  obtain rfl := Option.some.inj (ok.inj hpindex)
  have hsplit : node.StakeFromSplit sampleEnv mainParams (forkBlock []) (indexOf block₁ 1) := by
    refine ⟨fun txin hin => .inl ?_⟩
    revert txin
    decide +kernel
  exact ⟨_, _, hprev, hiff.mpr (.inr hsplit)⟩

/-- **A fork block with a stake that does not exist is stored**: its coinstake spends an output
of no transaction besides. -/
theorem stakeInputs_not_unspent :
    ¬ ∀ (ops : ChainOps) (E : Env) (params : CChainParams) (literal : UInt64) (N N' : NodeState)
        (block : CBlock) (pindex : CBlockIndex),
      ops.Preserves (NodeState.Consistent E params) → N.Consistent E params →
      block.isProofOfStake = true →
      exec (acceptBlock ops E params literal block) N = (.ok (pindex, true), N') →
      ∃ pindexPrev N₁, exec (getPrevIndex ops E params block) N = (.ok (some pindexPrev), N₁) ∧
        N₁.StakeUnspent E.toHashing params block pindexPrev := by
  intro hall
  let bad : List CTxIn := [⟨⟨BaseUint.ofNat 77, 0⟩, [], 0⟩]
  obtain ⟨⟨p, _⟩, hrun, rfl⟩ : ∃ r,
      (exec (acceptBlock .idle sampleEnv mainParams 0 (forkBlock bad)) node).1 = .ok r ∧
        true = r.2 := by
    decide +kernel
  obtain ⟨pindexPrev, N₁, hprev, hunspent⟩ := hall .idle sampleEnv mainParams 0 node _
    (forkBlock bad) p (idle_preserves _) node_consistent (by decide +kernel) (exec_eq_of_fst hrun)
  have hparent := exec_getPrevIndex_forkBlock bad (by decide +kernel)
  obtain ⟨hpindex, rfl⟩ := Prod.mk.inj (hparent.symm.trans hprev)
  obtain rfl := Option.some.inj (ok.inj hpindex)
  have hno : ¬ node.StakeUnspent sampleEnv mainParams (forkBlock bad)
      (indexOf block₁ 1) := by decide +kernel
  exact hno hunspent

end ForkExample

end Passion
