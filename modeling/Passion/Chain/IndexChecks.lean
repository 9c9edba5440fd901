import Passion.Chain.BestChain

/-!
# The consistency of the block index, and the best chain

`CheckBlockIndex` of `validation.cpp` walks over the tree of the index and asserts about twenty
facts on every entry.

What the walk carries along a path is a property of the ancestors of the entry. The skip pointer is
left out of the model of an entry; it is the ancestor that `BuildSkip` sets it to.
-/

namespace Passion

open CBlockIndex

/-- `BLOCK_VALID_CHAIN`. -/
def BlockStatus.BLOCK_VALID_CHAIN : ℕ := 4

/-! ## The tree can be checked -/

instance (m : BlockMap) : Decidable m.IsTree :=
  decidable_of_iff (∀ e ∈ m.entries, e.2.hashBlock = e.1 ∧ (e.2.pprev = none → e.2.nHeight = 0) ∧
      (e.2.pprev.all fun g => (m.lookup g).any fun q => e.2.nHeight = q.nHeight + 1) = true ∧
      0 ≤ e.2.nHeight) <| by
    have hmem : ∀ {hash p}, m.lookup hash = some p ↔ ⟨hash, p⟩ ∈ m.entries :=
      fun {_ _} => AList.mem_lookup_iff
    constructor
    · intro h
      refine ⟨fun hp => (h _ (hmem.mp hp)).1, fun hp => (h _ (hmem.mp hp)).2.1,
        fun {hash p g} hp hprev => ?_, fun hp => (h _ (hmem.mp hp)).2.2.2⟩
      have hparent := (h _ (hmem.mp hp)).2.2.1
      rw [hprev, Option.all_some, Option.any_eq_true] at hparent
      obtain ⟨q, hq, hheight⟩ := hparent
      exact ⟨q, hq, of_decide_eq_true hheight⟩
    · intro h e he
      have hp : m.lookup e.1 = some e.2 := hmem.mpr he
      refine ⟨h.key hp, h.root hp, ?_, h.nonneg hp⟩
      cases hprev : e.2.pprev with
      | none => rfl
      | some g =>
        obtain ⟨q, hq, hheight⟩ := h.parent hp hprev
        rw [Option.all_some, hq, Option.any_some]
        exact decide_eq_true hheight

/-! ## The skip pointer -/

namespace CBlockIndex

/-- `InvertLowestOne`. -/
def invertLowestOne (n : ℕ) : ℕ := n &&& (n - 1)

/-- `GetSkipHeight`. -/
def getSkipHeight (height : ℕ) : ℕ :=
  if height < 2 then 0
  else if height % 2 = 1 then invertLowestOne (invertLowestOne (height - 1)) + 1
  else invertLowestOne height

/-- `pskip`, as `BuildSkip` sets it. -/
def pskip (m : BlockMap) (p : CBlockIndex) : Option CBlockIndex :=
  (p.prev m).bind fun q => q.getAncestor m (getSkipHeight p.nHeight.toNat)

/-! ## The conditions -/

/-- `pindexFirstInvalid` is set. -/
def HasInvalid (m : BlockMap) (p : CBlockIndex) : Prop :=
  ∃ a ∈ p.ancestors m, a.nStatus.failedValid = true

instance (m : BlockMap) (p : CBlockIndex) : Decidable (p.HasInvalid m) :=
  inferInstanceAs (Decidable (∃ a ∈ p.ancestors m, a.nStatus.failedValid = true))

/-- No block of the chain but the first is below the validity level: `pindexFirstNotTreeValid`
and its like are not set. -/
def AllAtLeast (m : BlockMap) (level : ℕ) (p : CBlockIndex) : Prop :=
  ∀ a ∈ p.ancestors m, a.pprev ≠ none → level ≤ a.nStatus.valid

instance (m : BlockMap) (level : ℕ) (p : CBlockIndex) : Decidable (p.AllAtLeast m level) :=
  inferInstanceAs (Decidable (∀ a ∈ p.ancestors m, a.pprev ≠ none → level ≤ a.nStatus.valid))

end CBlockIndex

open BlockStatus hiding none

namespace ChainIndex

/-- The entry sorts at least as good as the tip. -/
def NotWorse (I : ChainIndex) (p : CBlockIndex) : Prop :=
  (I.chainTip.any fun tip => I.workLess p tip) = false

instance (I : ChainIndex) (p : CBlockIndex) : Decidable (I.NotWorse p) :=
  inferInstanceAs (Decidable (_ = false))

/-- **The consistency checks of `CheckBlockIndex` on one entry**, in their order. -/
@[mk_iff] structure EntryOk (hashGenesisBlock : Uint256) (I : ChainIndex) (p : CBlockIndex) : Prop where
  genesis : p.pprev = none →
    p.hashBlock = hashGenesisBlock ∧ I.chainActive.head? = some p.hashBlock
  data : p.nStatus.haveData = true ↔ p.nTx ≠ 0
  transactions : BLOCK_VALID_TRANSACTIONS ≤ p.nStatus.valid ↔ 0 < p.nTx
  sequence : p.nChainTx = 0 → p.nSequenceId = 0
  missing : ¬ p.Complete I.mapBlockIndex ↔ p.nChainTx = 0
  work : (p.prev I.mapBlockIndex).all (fun q => q.nChainWork.toNat ≤ p.nChainWork.toNat) = true
  skip : p.nHeight < 2 ∨
    (p.pskip I.mapBlockIndex).any (fun s => s.nHeight < p.nHeight) = true
  tree : p.AllAtLeast I.mapBlockIndex BLOCK_VALID_TREE
  chain : BLOCK_VALID_CHAIN ≤ p.nStatus.valid → p.AllAtLeast I.mapBlockIndex BLOCK_VALID_CHAIN
  scripts : BLOCK_VALID_SCRIPTS ≤ p.nStatus.valid →
    p.AllAtLeast I.mapBlockIndex BLOCK_VALID_SCRIPTS
  failed : ¬ p.HasInvalid I.mapBlockIndex → p.nStatus.failed = false
  candidate : I.NotWorse p → p.Complete I.mapBlockIndex → ¬ p.HasInvalid I.mapBlockIndex →
    p.hashBlock ∈ I.setBlockIndexCandidates
  notCandidate : ¬ (I.NotWorse p ∧ p.Complete I.mapBlockIndex) →
    p.hashBlock ∉ I.setBlockIndexCandidates
  unlinked : p.nStatus.haveData = true → ¬ p.Complete I.mapBlockIndex →
    ¬ p.HasInvalid I.mapBlockIndex →
    p.pprev.all (fun g => (g, p.hashBlock) ∈ I.mapBlocksUnlinked) = true
  notUnlinked : ¬ (p.nStatus.haveData = true ∧ ¬ p.Complete I.mapBlockIndex) →
    p.pprev.all (fun g => (g, p.hashBlock) ∉ I.mapBlocksUnlinked) = true

set_option synthInstance.maxSize 512 in
instance (hashGenesisBlock : Uint256) (I : ChainIndex) (p : CBlockIndex) :
    Decidable (I.EntryOk hashGenesisBlock p) :=
  decidable_of_iff' _ (entryOk_iff hashGenesisBlock I p)

/-- **`CheckBlockIndex`** does not fail, with an active chain. That the walk over the tree meets
every entry, at its height, is that the entries form a tree. -/
@[mk_iff] structure CheckBlockIndex (hashGenesisBlock : Uint256) (I : ChainIndex) : Prop where
  active : I.chainActive ≠ []
  tree : I.mapBlockIndex.IsTree
  entries : ∀ e ∈ I.mapBlockIndex.entries, I.EntryOk hashGenesisBlock e.2

instance (hashGenesisBlock : Uint256) (I : ChainIndex) :
    Decidable (I.CheckBlockIndex hashGenesisBlock) :=
  decidable_of_iff' _ (checkBlockIndex_iff hashGenesisBlock I)

variable {genesis : Uint256} {connects : Uint256 → Bool} {I : ChainIndex} {hash : Uint256}
variable {p tip : CBlockIndex}

theorem notWorse_iff (htip : I.IsChain tip) (hm : I.IsTree) :
    I.NotWorse p ↔ I.rank tip ≤ I.rank p := by
  rw [NotWorse, htip.chainTip hm, Option.any_some, ← Bool.not_eq_true, workLess_iff, not_lt]

namespace CheckBlockIndex

theorem entry (h : I.CheckBlockIndex genesis) (hp : I.Has hash p) : I.EntryOk genesis p :=
  h.entries ⟨hash, p⟩ (AList.mem_lookup_iff.mp hp)

/-- A chain without a mark has no invalid block. -/
theorem not_hasInvalid (hun : p.Unmarked I) : ¬ p.HasInvalid I := by
  rintro ⟨a, ha, hbad⟩
  have hgood := hun a ha
  rw [failed, hbad] at hgood
  cases hgood

/-- **A checked index is ready for a reorganisation.** -/
theorem working (connects : Uint256 → Bool) (h : I.CheckBlockIndex genesis)
    (hcand : ∀ k ∈ I.setBlockIndexCandidates, k ∈ I.mapBlockIndex) (htip : I.IsChain tip)
    (huse : tip.Usable I) :
    Working connects I.chainActive (fun k => ∀ q, I.Has k q → ¬ q.HasInvalid I) (I.rank tip) I where
  tree := h.tree
  counted := fun hp hcomplete hzero => (h.entry hp).missing.mpr hzero hcomplete
  root := by
    intro k q k' q' hq hroot hq' hroot'
    have hkey := h.tree.key hq
    have hkey' := h.tree.key hq'
    exact hkey.symm.trans (((h.entry hq).genesis hroot).1.trans
      (((h.entry hq').genesis hroot').1.symm.trans hkey'))
  chain := ⟨tip, htip, htip.connectable h.tree huse⟩
  candidates := by
    intro k hk
    obtain ⟨q, hq⟩ := Option.isSome_iff_exists.mp (AList.lookup_isSome.mpr (hcand k hk))
    by_contra hno
    refine (h.entry hq).notCandidate (fun hboth => hno ⟨q, hq, hboth.2, ?_⟩) ?_
    · exact (notWorse_iff htip h.tree).mp hboth.1
    · rwa [h.tree.key hq]
  eligible := by
    intro k q hq hun q' hq'
    cases hq.symm.trans hq'
    exact not_hasInvalid hun
  kept := by
    intro k q hq hel hcomplete _ hrank
    refine .inl ?_
    rw [← h.tree.key hq]
    exact (h.entry hq).candidate ((notWorse_iff htip h.tree).mpr hrank) hcomplete (hel q hq)
  alive := .inr ⟨tip.hashBlock, tip, (h.entry htip.entry).candidate
    ((notWorse_iff htip h.tree).mpr le_rfl) huse.complete (not_hasInvalid huse.unmarked),
    htip.entry, htip.connectable h.tree huse⟩

end CheckBlockIndex

/-! ## More turns change nothing -/

theorem activateLoop_succ {n : ℕ} {st mw : Option Uint256} {bc : Bool} {J : ChainIndex}
    (h : activateLoop connects n st bc mw I = some J) :
    activateLoop connects (n + 1) st bc mw I = some J := by
  induction n generalizing st bc mw I with
  | zero => cases h
  | succ n ih =>
    unfold activateLoop at h ⊢
    -- Both runs are at the same place of the loops until the next turn.
    split at h
    · cases h
    · split_ifs at h ⊢ with hmore
      · exact ih h
      · exact h
    · rename_i K c hfind
      split_ifs at h ⊢ with htop
      · exact h
      · split at h
        · cases h
        · rename_i L invalid hstep
          dsimp only at h ⊢
          generalize (if invalid = true then none else some c.hashBlock) = next at h ⊢
          split_ifs at h ⊢ with hworse hend
          · exact ih h
          · exact h
          · exact ih h

theorem activateBestChain_of_le {J : ChainIndex} {n k : ℕ}
    (h : I.activateBestChain connects n = some J) (hle : n ≤ k) :
    I.activateBestChain connects k = some J := by
  induction k, hle using Nat.le_induction with
  | base => exact h
  | succ k _ ih => exact activateLoop_succ ih

/-! ## The best chain -/

section

variable {first : List Uint256} {Eligible : Uint256 → Prop} {r₀ : ℕ ×ₗ (ℕᵒᵈ ×ₗ ℕᵒᵈ)}
variable {J : ChainIndex} {turns : ℕ}

/-- All numbers of turns that suffice give one result. -/
theorem Working.of_run (h : Working connects first Eligible r₀ I)
    (hrun : I.activateBestChain connects turns = some J) :
    Reached connects I J ∧ Working connects first Eligible r₀ J := by
  obtain ⟨N, K, hreached, hK, hend⟩ := h.activateBestChain
  have hsame : K = J := Option.some.inj ((hend (max N turns) (le_max_left _ _)).symm.trans
      (activateBestChain_of_le hrun (le_max_right _ _)))
  exact hsame ▸ ⟨hreached, hK⟩

theorem KeepsChain.not_firstMarked (h : I.KeepsChain connects turns)
    (hrun : I.activateBestChain connects turns = some J) : ¬ J.FirstMarked I.chainActive := by
  rintro ⟨hash, hfirst, p, hp, hfailed⟩
  rw [h J hrun hash hfirst p hp] at hfailed
  cases hfailed

/-- As long as the first chain is not marked, the tip at the end is a target. -/
theorem Reached.exists_target (h : Reached connects I J) (hJ : Working connects first Eligible r₀ J)
    (hkeep : ¬ J.FirstMarked first) : ∃ c, J.Target c ∧ J.IsChain c := by
  obtain ⟨g, y, hg, -⟩ := hJ.alive.resolve_left hkeep
  refine h.target.resolve_left fun hempty => ?_
  rw [hempty] at hg
  cases hg

end

/-- The tip after `ActivateBestChain` is not worse than any usable block. -/
def BestTip (J : ChainIndex) : Prop :=
  ∃ tip, J.chainTip = some tip ∧ ∀ hash p, J.mapBlockIndex.lookup hash = some p →
    p.Usable J.mapBlockIndex → J.workLess tip p = false

/-- **`ActivateBestChain` ends on the best chain.** From an index that passes the checks and whose
active chain has its data and is not marked, it ends without a failed assertion, whatever
`ConnectTip` finds. If no block of the active chain gets marked, the tip is not worse than any
block whose chain has its data and is not marked then, the tip at the start among them. -/
theorem activateBestChain_bestTip {genesis : Uint256} (connects : Uint256 → Bool)
    {I : ChainIndex} {tip : CBlockIndex} (hcheck : I.CheckBlockIndex genesis)
    (hcand : ∀ k ∈ I.setBlockIndexCandidates, k ∈ I.mapBlockIndex) (htip : I.IsChain tip)
    (huse : tip.Usable I.mapBlockIndex) :
    (∃ turns J, I.activateBestChain connects turns = some J) ∧
      ∀ turns J, I.activateBestChain connects turns = some J → I.KeepsChain connects turns →
        J.BestTip ∧ ∃ tip' s, J.chainTip = some tip' ∧
          J.mapBlockIndex.lookup tip.hashBlock = some s ∧ J.workLess tip' s = false := by
  have hwork := hcheck.working connects hcand htip huse
  obtain ⟨N, K, -, -, hend⟩ := hwork.activateBestChain
  refine ⟨⟨N, K, hend N (le_refl _)⟩, fun turns J hrun hkeep => ?_⟩
  obtain ⟨hreached, hJ⟩ := hwork.of_run hrun
  obtain ⟨c, htarget, hchain⟩ := hreached.exists_target hJ (hkeep.not_firstMarked hrun)
  have htop := hchain.chainTip hJ.tree
  obtain ⟨f, hchange⟩ := hreached.steps.exists_marking hwork
  refine ⟨⟨c, htop, fun hash p hp hgood => ?_⟩, c, f tip, htop, hchange.lookup htip.entry, ?_⟩
  · rw [← Bool.not_eq_true, workLess_iff, not_lt]
    exact hJ.rank_le_target htarget hp hgood
  · rw [← Bool.not_eq_true, workLess_iff, not_lt, hchange.rank]
    exact hJ.le_target htarget

/-! ## A fork of two blocks -/

/-- An entry of which all that matters is given, with one transaction. -/
def forkEntry (n : ℕ) (parent : Option ℕ) (nHeight : ℤ) (work nSequenceId : ℕ)
    (nStatus : BlockStatus) : CBlockIndex where
  hashBlock := BaseUint.ofNat n
  pprev := parent.map BaseUint.ofNat
  nHeight := nHeight
  nStatus := nStatus
  vStakeModifier := []
  fProofOfStake := false
  fStakeEntropy := false
  fStakeModifier := false
  nTx := 1
  nChainTx := nHeight.toNat + 1
  nSaplingValue := 0
  nChainSaplingValue := some 0
  nVersion := 7
  hashMerkleRoot := BaseUint.zero
  hashFinalSaplingRoot := BaseUint.zero
  nTime := 0
  nBits := 0
  nNonce := 0
  nTimeMax := 0
  nChainWork := BaseUint.ofNat work
  nSequenceId := nSequenceId

/-- The active chain is the genesis block 1 and block 2; block 4 on block 3 has more work. -/
def forkIndex : ChainIndex where
  mapBlockIndex := [
    forkEntry 1 none 0 1 1 ⟨3, true, false, false, false⟩,
    forkEntry 2 (some 1) 1 2 2 ⟨5, true, true, false, false⟩,
    forkEntry 3 (some 1) 1 2 3 ⟨3, true, false, false, false⟩,
    forkEntry 4 (some 3) 2 3 4 ⟨3, true, false, false, false⟩].foldl
      (fun m p => m.insert p.hashBlock p) ∅
  pindexBestHeader := some (BaseUint.ofNat 4)
  setBlockIndexCandidates := [BaseUint.ofNat 2, BaseUint.ofNat 4]
  nBlockSequenceId := 5
  chainActive := [BaseUint.ofNat 1, BaseUint.ofNat 2]

/-- The tip of the active chain. -/
def forkTip : CBlockIndex := forkEntry 2 (some 1) 1 2 2 ⟨5, true, true, false, false⟩

theorem forkIndex_isChain : forkIndex.IsChain forkTip :=
  ⟨by decide +kernel, by decide +kernel⟩

/-- Block 4 does not connect, and the node returns to block 2. -/
theorem activateBestChain_bestTip_fork :
    ∃ J, forkIndex.activateBestChain (· ≠ BaseUint.ofNat 4) 8 = some J ∧ J.BestTip ∧
      J.chainActive = forkIndex.chainActive := by
  obtain ⟨J, hrun, hsame⟩ : ∃ J, forkIndex.activateBestChain (· ≠ BaseUint.ofNat 4) 8 = some J ∧
      J.chainActive = forkIndex.chainActive := by
    decide +kernel
  have hcheck : forkIndex.CheckBlockIndex (BaseUint.ofNat 1) := by decide +kernel
  have hends := activateBestChain_bestTip (· ≠ BaseUint.ofNat 4) hcheck (by decide +kernel)
    forkIndex_isChain ⟨by decide +kernel, by decide +kernel⟩
  exact ⟨J, hrun, (hends.2 8 J hrun (by decide +kernel)).1, hsame⟩

/-- **A chain that does not connect again leaves the node on a worse tip.** Block 4 does not
connect, and neither does block 2 on the way back. Block 3 connects, and was taken out of the
candidates when it was worse than block 2: the node ends on the genesis block. -/
theorem activateBestChain_not_bestTip :
    ¬ ∀ (genesis : Uint256) (connects : Uint256 → Bool) (I : ChainIndex) (tip : CBlockIndex),
      I.CheckBlockIndex genesis → (∀ k ∈ I.setBlockIndexCandidates, k ∈ I.mapBlockIndex) →
      I.IsChain tip → tip.Usable I.mapBlockIndex →
      ∀ turns J, I.activateBestChain connects turns = some J → J.BestTip := by
  intro hall
  have hbest := hall (BaseUint.ofNat 1) (· = BaseUint.ofNat 3) forkIndex forkTip
    (by decide +kernel) (by decide +kernel) forkIndex_isChain ⟨by decide +kernel, by decide +kernel⟩
  obtain ⟨J, hJ, tip, htip, p, hp, hcomplete, hunmarked, hless⟩ : ∃ J,
      forkIndex.activateBestChain (· = BaseUint.ofNat 3) 8 = some J ∧
      ∃ tip, J.chainTip = some tip ∧ ∃ p, J.mapBlockIndex.lookup (BaseUint.ofNat 3) = some p ∧
        p.Complete J ∧ p.Unmarked J ∧ J.workLess tip p = true := by
    decide +kernel
  obtain ⟨tip', htip', hnone⟩ := hbest 8 J hJ
  cases htip.symm.trans htip'
  cases hless.symm.trans (hnone _ p hp ⟨hcomplete, hunmarked⟩)

end ChainIndex

end Passion
