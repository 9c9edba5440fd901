import Passion.Chain.ModifierAgreement
import Passion.Chain.NewEntry
import Passion.Consensus.Targets

/-!
# The tree that `AddToBlockIndex` builds

Block after block `AddToBlockIndex` builds a tree in which every entry holds the work of its chain.
As long as the targets are not too small and the chain not too long, that work does not wrap, and
every block adds to it.
-/

namespace Passion

open List CBlockIndex BaseUint BlockMap

namespace BlockMap

variable {m : BlockMap} {p : CBlockIndex}

/-- The targets of a chain of at most `2 ^ 31` blocks are valid and at least `2 ^ 64`. -/
def ModestWork (m : BlockMap) (p : CBlockIndex) : Prop :=
  (p.ancestors m).length ≤ 2 ^ 31 ∧ ∀ a ∈ p.ancestors m, ∃ T, validTarget a.nBits = some T ∧ 2 ^ 64 ≤ T

/-- The work of a chain, in unbounded integers. -/
def totalWork (m : BlockMap) (p : CBlockIndex) : ℕ :=
  ((p.ancestors m).map fun a => (getBlockProof a.nBits).toNat).sum

theorem ModestWork.totalWork_lt (h : m.ModestWork p) : m.totalWork p < 2 ^ 256 := by
  have hle : m.totalWork p ≤ (p.ancestors m).length • 2 ^ 192 := by
    rw [← List.length_map]
    refine List.sum_le_card_nsmul _ _ fun w hw => ?_
    obtain ⟨a, ha, rfl⟩ := List.mem_map.mp hw
    obtain ⟨T, hT, hle⟩ := h.2 a ha
    rw [(getBlockProof_of_valid hT).1]
    exact (Nat.div_le_div_left (show 2 ^ 64 ≤ T + 1 by omega) (by norm_num)).trans (by norm_num)
  -- at most `2 ^ 31` blocks of at most `2 ^ 192` each
  have hlen := h.1
  simp only [smul_eq_mul] at hle
  omega

end BlockMap

/-! ## One block after the other -/

/-- **A tree built by `AddToBlockIndex`**: every entry holds its work and, before proof of stake,
the first block after a root has a generated modifier. -/
structure Built (params : CChainParams) (m : BlockMap) : Prop extends m.IsTree where
  work : ∀ {k p}, m.lookup k = some p → p.nChainWork = (p.finish m).nChainWork
  first : ∀ {k p g q}, m.lookup k = some p → p.pprev = some g → m.lookup g = some q →
    q.nHeight = 0 → params.consensus.networkUpgradeActive 1 .upgradePos = false →
    p.fStakeModifier = true

variable {H : Hashing} {params : CChainParams} {literal : UInt64} {t t' : BlockTree}
variable {block : CBlock} {p q : CBlockIndex} {m m' : BlockMap} {hash : Uint256}

theorem fStakeModifier_of_root (hnew : t.mapBlockIndex.lookup (block.getHash H) = none)
    (hne : block.hashPrevBlock ≠ block.getHash H)
    (hq : t.mapBlockIndex.lookup block.hashPrevBlock = some q) (h0 : q.nHeight = 0)
    (hpos : params.consensus.networkUpgradeActive 1 .upgradePos = false)
    (h : addToBlockIndex H params literal t block = .ok (t', p)) : p.fStakeModifier = true := by
  simp only [addToBlockIndex, newBlockIndex, hnew, AList.lookup_insert_ne hne, hq, h0, Int.zero_add,
    hpos, Bool.not_false, if_true, Except.ok.injEq, Prod.mk.injEq] at h
  rw [← h.2]
  simp [finish, setNewStakeModifierV1, CBlockIndex.prev, AList.lookup_insert_ne hne, hq,
    computeNextStakeModifier, h0]

/-- A new entry holds its work, and the others keep theirs. -/
theorem NewEntry.work (hp : NewEntry m hash block p) (hext : m.Extends m' hash p)
    (hm : Built params m) {k : Uint256} (hq : m'.lookup k = some q) :
    q.nChainWork = (q.finish m').nChainWork := by
  rcases hext.cases hq with ⟨-, rfl⟩ | hold
  · rw [hp.nChainWork, finish, CBlockIndex.prev, hp.pprev, hp.nBits]
    cases hprev : m.lookup block.hashPrevBlock with
    | none => rfl
    | some r => simp [hext.keep hprev]
  · rw [hm.work hold, finish, finish, CBlockIndex.prev, CBlockIndex.prev]
    cases hprev : q.pprev with
    | none => rfl
    | some g =>
      obtain ⟨r, hr, -⟩ := hm.parent hold hprev
      simp [hr, hext.keep hr]

theorem Built.step (hm : Built params t.mapBlockIndex)
    (hne : block.hashPrevBlock ≠ block.getHash H)
    (h : addToBlockIndex H params literal t block = .ok (t', p)) :
    Built params t'.mapBlockIndex := by
  cases hnew : t.mapBlockIndex.lookup (block.getHash H) with
  | some old =>
    -- the block is known, and its entry is handed back
    rw [addToBlockIndex, hnew] at h
    cases h
    exact hm
  | none =>
    obtain ⟨hentry, hext⟩ := addToBlockIndex_new hnew hne h
    refine ⟨hentry.isTree hm.toIsTree hext, fun hp => hentry.work hext hm hp,
      fun {k r g q} hr hprev hq h0 hpos => ?_⟩
    rcases hext.cases hr with ⟨-, rfl⟩ | hold
    · rw [hentry.pprev, Option.map_eq_some_iff] at hprev
      obtain ⟨q', hq', rfl⟩ := hprev
      cases (hext.keep hq').symm.trans hq
      exact fStakeModifier_of_root hnew hne hq' h0 hpos h
    · obtain ⟨q', hq', -⟩ := hm.parent hold hprev
      cases (hext.keep hq').symm.trans hq
      exact hm.first hold hprev hq' h0 hpos

theorem Built.run {blocks : List CBlock}
    (hself : ∀ block ∈ blocks, block.hashPrevBlock ≠ block.getHash H)
    (hm : Built params t.mapBlockIndex) (h : addBlocks H params literal t blocks = .ok t') :
    Built params t'.mapBlockIndex := by
  induction blocks generalizing t with
  | nil =>
    cases h
    exact hm
  | cons block blocks ih =>
    unfold addBlocks at h
    split at h
    · cases h
    · rename_i hstep
      exact ih (fun b hb => hself b (mem_cons_of_mem _ hb))
        (hm.step (hself block mem_cons_self) hstep) h

theorem Built.empty : Built params BlockTree.empty.mapBlockIndex where
  key h := by cases h
  root h := by cases h
  parent h := by cases h
  nonneg h := by cases h
  work h := by cases h
  first h := by cases h

/-! ## The work of a chain -/

/-- **The work that an entry holds is that of its chain**, modulo `2 ^ 256`. -/
theorem Built.nChainWork_eq (hm : Built params m) (hp : m.lookup hash = some p) :
    p.nChainWork.toNat = m.totalWork p % 2 ^ 256 := by
  refine hm.induction (fun hash p hp hroot => ?_) (fun hash p g q hp hprev hq ih => ?_) hp
  · rw [hm.work hp, totalWork, hm.sum_root hp _ hroot]
    simp [CBlockIndex.finish, CBlockIndex.prev, hroot, toNat_add]
  · rw [hm.work hp, totalWork, hm.sum_child hp _ hprev hq, ← totalWork]
    simp [CBlockIndex.finish, CBlockIndex.prev, hprev, hq, toNat_add, ih]

/-- **Chain work is exact**: the work of a block is `2 ^ 256 / (T + 1)`, it falls as the target
grows, and that of a chain that `AddToBlockIndex` built does not wrap, so that every block adds to
it. -/
theorem chainWork_exact :
    (∀ nBits T, validTarget nBits = some T → (getBlockProof nBits).toNat = 2 ^ 256 / (T + 1)) ∧
    (∀ nBits, validTarget nBits = none → (getBlockProof nBits).toNat = 0) ∧
    (∀ a b T U, validTarget a = some T → validTarget b = some U → T ≤ U →
      (getBlockProof b).toNat ≤ (getBlockProof a).toNat) ∧
    ∀ (H : Hashing) (params : CChainParams) (literal : UInt64) (blocks : List CBlock) (t : BlockTree),
      (∀ block ∈ blocks, block.hashPrevBlock ≠ block.getHash H) →
      addBlocks H params literal .empty blocks = .ok t →
      ∀ hash p, t.mapBlockIndex.lookup hash = some p → t.mapBlockIndex.ModestWork p →
        p.nChainWork.toNat = t.mapBlockIndex.totalWork p ∧
        ∀ q, p.prev t.mapBlockIndex = some q → q.nChainWork.toNat < p.nChainWork.toNat := by
  refine ⟨fun nBits T h => (getBlockProof_of_valid h).1, fun nBits => getBlockProof_of_invalid,
    fun a b T U hT hU hle => ?_, fun H params literal blocks t hself hrun hash p hp hmodest => ?_⟩
  · rw [(getBlockProof_of_valid hT).1, (getBlockProof_of_valid hU).1]
    exact Nat.div_le_div_left (by omega) (Nat.succ_pos T)
  · have hm := Built.empty.run hself hrun
    have hsum : p.nChainWork.toNat = t.mapBlockIndex.totalWork p := by
      rw [hm.nChainWork_eq hp, Nat.mod_eq_of_lt hmodest.totalWork_lt]
    refine ⟨hsum, fun q hq => ?_⟩
    obtain ⟨g, hprev, hg⟩ := Option.bind_eq_some_iff.mp hq
    obtain ⟨T, hT, -⟩ := hmodest.2 p (hm.self_mem_ancestors hp)
    have hchild : t.mapBlockIndex.totalWork p =
        t.mapBlockIndex.totalWork q + (getBlockProof p.nBits).toNat :=
      hm.sum_child hp _ hprev hg
    have hlt : q.nChainWork.toNat ≤ t.mapBlockIndex.totalWork q := by
      rw [hm.nChainWork_eq hg]
      exact Nat.mod_le _ _
    have hpos := getBlockProof_pos hT
    omega

/-- The second block has twice the work of the first one. -/
theorem chainWork_exact_two : ∃ t p, addBlocks nonceHashing mainParams 0 .empty
      [bareBlock BaseUint.zero 7, bareBlock (BaseUint.ofNat 7) 8] = .ok t ∧
    t.mapBlockIndex.lookup (BaseUint.ofNat 8) = some p ∧
    p.nChainWork.toNat = t.mapBlockIndex.totalWork p ∧
    ∃ q, p.prev t.mapBlockIndex = some q ∧ q.nChainWork.toNat < p.nChainWork.toNat := by
  obtain ⟨t, hrun, p, hp, hmodest, hprev⟩ : ∃ t, addBlocks nonceHashing mainParams 0 .empty
      [bareBlock BaseUint.zero 7, bareBlock (BaseUint.ofNat 7) 8] = .ok t ∧
      ∃ p, t.mapBlockIndex.lookup (BaseUint.ofNat 8) = some p ∧ t.mapBlockIndex.ModestWork p ∧
        (p.prev t.mapBlockIndex).isSome = true := by
    unfold BlockMap.ModestWork
    decide +kernel
  obtain ⟨q, hq⟩ := Option.isSome_iff_exists.mp hprev
  obtain ⟨-, -, -, hchain⟩ := chainWork_exact
  obtain ⟨hsum, hmore⟩ := hchain _ _ _ _ t (by decide +kernel) hrun _ p hp hmodest
  exact ⟨t, p, hrun, hp, hsum, q, hq, hmore q hq⟩

end Passion
