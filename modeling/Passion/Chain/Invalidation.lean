import Passion.Chain.Consistency

/-!
# Invalidating and reconsidering a block

`InvalidateBlock` marks a block, disconnects it with all blocks above it, and puts the blocks
that are good enough now among the candidates. `ReconsiderBlock` takes the marks off a block,
its descendants and its ancestors. Both keep the index consistent, with two exceptions: the
genesis block cannot be disconnected, and the ancestors of a reconsidered block are neither
made candidates nor are their other descendants cleared.
-/

namespace Passion

open List CBlockIndex Option
open BlockStatus hiding none

namespace ChainIndex

variable {genesis : Uint256} {I J : ChainIndex} {tip p q : CBlockIndex}
variable {f : CBlockIndex → CBlockIndex}

/-! ## Disconnecting -/

/-- Without its tip the active chain is the path of the parent. -/
theorem IsChain.dropLast (htip : I.IsChain tip) (hm : I.IsTree)
    (hprev : tip.pprev = some q.hashBlock) (hq : I.Has q.hashBlock q) :
    { I with chainActive := I.chainActive.dropLast }.IsChain q := by
  refine ⟨hq, ?_⟩
  rw [htip.active, hm.ancestors_child htip.entry hprev hq, map_cons, reverse_cons, dropLast_concat]

/-- The tip is marked and disconnected. -/
def failTip (I : ChainIndex) (hashWalk : Uint256) : ChainIndex :=
  { (I.modify hashWalk markFailedChild).eraseCandidate hashWalk with
    chainActive := I.chainActive.dropLast }

/-- **`InvalidateBlock` at work on a block**: the block was marked as invalid, blocks above it
as children of one, and the active chain was cut down to `t`. -/
structure Invalidating (p tip : CBlockIndex) (I J : ChainIndex) (f : CBlockIndex → CBlockIndex)
    (t : CBlockIndex) : Prop extends Change I J f where
  level : ∀ a, (f a).nStatus.valid = a.nStatus.valid
  invalid : ∀ a, (f a).nStatus.failedValid =
    (changeAt p.hashBlock markFailedValid a).nStatus.failedValid
  above : ∀ {k a}, I.mapBlockIndex.lookup k = some a → (f a).nStatus.failed = true →
    a.nStatus.failed = true ∨ p ∈ a.ancestors I
  unlinked : J.mapBlocksUnlinked = I.mapBlocksUnlinked
  candidates : J.setBlockIndexCandidates ⊆ I.setBlockIndexCandidates
  below : t ∈ tip.ancestors I
  chain : J.IsChain (f t)

theorem Invalidating.start (hm : I.IsTree) (htip : I.IsChain tip) (hp : I.Has p.hashBlock p) :
    Invalidating p tip I ((I.modify p.hashBlock markFailedValid).eraseCandidate p.hashBlock)
      (changeAt p.hashBlock markFailedValid) tip where
  toChange := (marking_fail hm p).toChange
  level := apply_changeAt (g := fun a => a.nStatus.valid) (f := markFailedValid) (fun _ => rfl) _
  invalid := fun _ => rfl
  above := by
    intro k a ha hfail
    by_cases heq : a.hashBlock = p.hashBlock
    · rw [hm.eq_of_hashBlock ha hp heq]
      exact .inr (hm.self_mem_ancestors hp)
    · rw [changeAt_of_ne heq] at hfail
      exact .inl hfail
  unlinked := rfl
  candidates := filter_subset_self _
  below := hm.self_mem_ancestors htip.entry
  chain := (marking_fail hm p).isChain hm htip rfl

/-- One more block is disconnected. -/
theorem Invalidating.failTip {t u : CBlockIndex}
    (h : Invalidating p tip I J f t) (hm : I.IsTree) (htip : I.IsChain tip)
    (hin : p ∈ t.ancestors I) (hprev : t.pprev = some u.hashBlock) (hu : I.Has u.hashBlock u) :
    Invalidating p tip I (J.failTip t.hashBlock) (changeAt t.hashBlock markFailedChild ∘ f) u := by
  have ht := hm.lookup_ancestor htip.entry h.below
  have hc : Change J (J.failTip t.hashBlock) (changeAt t.hashBlock markFailedChild) :=
    Change.of_modify (h.isTree hm) Remarked.markFailedChild rfl rfl
  have hlook : J.mapBlockIndex.lookup (f u).hashBlock = some (f u) := by
    rw [h.hashBlock]
    exact h.lookup hu
  have hcut : ({ J with chainActive := J.chainActive.dropLast }).IsChain (f u) :=
    h.chain.dropLast (h.isTree hm) (by rw [h.pprev, h.hashBlock, hprev]) hlook
  refine { toChange := h.toChange.trans hc, level := fun a => ?_, invalid := fun a => ?_,
           above := fun {k a} ha hfail => ?_, unlinked := h.unlinked,
           candidates := Subset.trans (filter_subset_self _) h.candidates,
           below := hm.ancestors_subset htip.entry h.below ?_, chain := ?_ }
  · rw [← h.level a]
    exact apply_changeAt (g := fun a => a.nStatus.valid) (f := markFailedChild) (fun _ => rfl) _ _
  · rw [← h.invalid a]
    exact apply_changeAt (g := fun a => a.nStatus.failedValid) (f := markFailedChild)
      (fun _ => rfl) _ _
  · by_cases heq : a.hashBlock = t.hashBlock
    · rw [hm.eq_of_hashBlock ha ht heq]
      exact .inr hin
    · rw [Function.comp_apply, changeAt_of_ne (by rwa [h.hashBlock])] at hfail
      exact h.above ha hfail
  · rw [hm.ancestors_child ht hprev hu]
    exact mem_cons_of_mem _ (hm.self_mem_ancestors hu)
  · -- The same cut on both sides of the change of the tip.
    have hcK : Change { J with chainActive := J.chainActive.dropLast } (J.failTip t.hashBlock)
        (changeAt t.hashBlock markFailedChild) := Change.of_map hc.map hc.remarked hc.address
    exact hcK.isChain (h.isTree hm) hcut rfl

/-- **The loop of `InvalidateBlock`** ends below the block. The induction is on the number of
turns that are left; each turn brings the tip one block down. -/
theorem Invalidating.exists_disconnectInvalid (hm : I.IsTree) (htip : I.IsChain tip)
    (hp : I.Has p.hashBlock p) (hroot : p.pprev ≠ none) {n : ℕ}
    {t : CBlockIndex} (h : Invalidating p tip I J f t) (hlen : t.nHeight - p.nHeight < n) :
    ∃ J' f' t', disconnectInvalid p n J = (J', true) ∧ Invalidating p tip I J' f' t' ∧
      p ∉ t'.ancestors I := by
  induction n generalizing J f t with
  | zero =>
    have ht := hm.lookup_ancestor htip.entry h.below
    have hout : p ∉ t.ancestors I := by
      intro hin
      have hle := hm.nHeight_le_of_mem_ancestors ht hin
      omega
    refine ⟨J, f, t, ?_, h, hout⟩
    rw [disconnectInvalid, Bool.eq_false_iff.mpr fun hyes =>
      hout ((h.chainContains_iff hm ht h.chain hp).mp hyes), Bool.not_false]
  | succ n ih =>
    have ht := hm.lookup_ancestor htip.entry h.below
    have hcontains := h.chainContains_iff hm ht h.chain hp
    by_cases hin : p ∈ t.ancestors I
    · -- The tip is not the genesis block, which is not above the block.
      obtain ⟨g, hg⟩ : ∃ g, t.pprev = some g := by
        refine ne_none_iff_exists'.mp fun hnone => hroot ?_
        rw [hm.ancestors_root ht hnone, mem_singleton] at hin
        rw [hin, hnone]
      obtain ⟨u, hu, hheight⟩ := hm.parent ht hg
      rw [← hm.key hu] at hg hu
      have hlength : ¬ (J.chainActive.length ≤ 1) := by
        have hlen := (hm.getElem?_reverse_ancestors ht).1
        have hnonneg := hm.nonneg hu
        rw [h.chain.active, length_reverse, length_map, h.ancestors hm ht, length_map]
        omega
      have hturn : disconnectInvalid p (n + 1) J =
          disconnectInvalid p n (J.failTip t.hashBlock) := by
        rw [disconnectInvalid, hcontains.mpr hin, h.chain.getLast? (h.isTree hm), h.hashBlock]
        exact if_neg hlength
      rw [hturn]
      exact ih (h.failTip hm htip hin hg hu) (by omega)
    · refine ⟨J, f, t, ?_, h, hin⟩
      rw [disconnectInvalid, Bool.eq_false_iff.mpr fun hyes => hin (hcontains.mp hyes),
        Bool.not_false, if_pos rfl]

/-! ## `InvalidateBlock` -/

theorem mem_foldl_insert {P : Uint256 → Bool} {x : Uint256} (keys set : List Uint256) :
    x ∈ keys.foldl (fun set h => if P h then set.insert h else set) set ↔
      x ∈ set ∨ (x ∈ keys ∧ P x = true) := by
  induction keys generalizing set with
  | nil => simp
  | cons k keys ih =>
    rw [foldl_cons]
    split
    · grind
    · grind

variable {k : Uint256}

theorem mem_foldl_candidates {P : CBlockIndex → Bool} {m : BlockMap} {set : List Uint256} :
    k ∈ m.keys.foldl (fun set h => if (m.lookup h).any P then set.insert h else set) set ↔
      k ∈ set ∨ ∃ a, m.lookup k = some a ∧ P a = true := by
  rw [mem_foldl_insert, ← AList.mem_keys, ← AList.lookup_isSome, Option.any_eq_true]
  refine or_congr_right ⟨fun h => h.2, fun ⟨a, ha, hP⟩ => ⟨by rw [ha]; rfl, a, ha, hP⟩⟩

/-- The candidates after `InvalidateBlock`. -/
theorem mem_readdCandidates :
    k ∈ I.readdCandidates.setBlockIndexCandidates ↔ k ∈ I.setBlockIndexCandidates ∨
      ∃ a, I.Has k a ∧ a.isValid BLOCK_VALID_TRANSACTIONS = true ∧
        a.nChainTx ≠ 0 ∧ I.NotWorse a := by
  rw [readdCandidates, mem_foldl_candidates]
  simp [and_assoc, NotWorse]

/-- **`InvalidateBlock` keeps an index consistent**, unless it is called for the genesis
block. -/
theorem Consistent.invalidateBlock (h : I.Consistent genesis)
    (hp : I.Has p.hashBlock p) (hroot : p.pprev ≠ none) :
    (I.invalidateBlock p).1.Consistent genesis := by
  have hm := h.tree
  obtain ⟨tip, htip, huse, hscripts⟩ := h.chain
  obtain ⟨J, f, t, hrun, hJ, hout⟩ := Invalidating.exists_disconnectInvalid hm htip hp hroot
    (n := I.chainActive.length) (Invalidating.start hm htip hp) (by
      have hlen := (hm.getElem?_reverse_ancestors htip.entry).1
      have hnonneg := hm.nonneg hp
      rw [htip.active, length_reverse, length_map]
      omega)
  have hend : (I.invalidateBlock p).1 = J.readdCandidates.invalidChainFound p := by
    unfold ChainIndex.invalidateBlock
    dsimp only [eraseCandidate, modify] at hrun ⊢
    rw [hrun]
  rw [hend]
  have ht := hm.lookup_ancestor htip.entry hJ.below
  have hsub := hm.ancestors_subset htip.entry hJ.below
  have hcK : Change I (J.readdCandidates.invalidChainFound p) f :=
    hJ.toChange.congr rfl rfl
  have hchainK : (J.readdCandidates.invalidChainFound p).IsChain (f t) :=
    ⟨hJ.chain.entry, hJ.chain.active⟩
  have hrise : ∀ a, a.nStatus.valid ≤ (f a).nStatus.valid := fun a => (hJ.level a).ge
  have hsteady : (J.readdCandidates.invalidChainFound p).Steady genesis := by
    refine h.toSteady.of_change hcK hJ.unlinked ⟨hrise, fun ha hle => ?_,
      fun {k a} ha hfail => ?_, f t, hchainK,
      hcK.usable hm ht (huse.of_mem_ancestors hm htip.entry hJ.below) ?_,
      hcK.allAtLeast hm ht hrise fun a ha => hscripts a (hsub ha)⟩ (fun _ hle => ?_)
      (fun {k} hin => ?_)
    · rw [hJ.level] at hle
      exact hcK.allAtLeast hm ha hrise ((h.entry ha).validated hle)
    · rcases hJ.above ha hfail with hfail | hmem
      · refine hcK.hasInvalid hm ha (fun b hb => ?_) ((h.entry ha).failed hfail)
        rw [hJ.invalid]
        unfold changeAt
        split
        · rfl
        · exact hb
      · refine ⟨f p, (hcK.mem_ancestors_iff hm ha hp).mpr hmem, ?_⟩
        rw [hJ.invalid, changeAt_self]
        rfl
    · intro a ha
      rw [← Bool.not_eq_true]
      intro hfail
      rcases hJ.above (hm.lookup_ancestor ht ha) hfail with hbad | hbad
      · rw [huse.unmarked a (hsub ha)] at hbad
        cases hbad
      · exact hout (hm.ancestors_subset ht ha hbad)
    · rwa [hJ.level] at hle
    · rcases mem_readdCandidates.mp hin with hin | ⟨a', ha', -, hlinked, hbetter⟩
      · obtain ⟨a, ha, hlinked, hbetter⟩ := h.candidates (hJ.candidates hin)
        refine ⟨a, ha, hlinked, ?_⟩
        rw [notWorse_iff hchainK (hcK.isTree hm), hcK.rank, hcK.rank]
        exact (h.rank_le htip.entry hJ.below).trans ((notWorse_iff htip hm).mp hbetter)
      · obtain ⟨a, ha, rfl⟩ := hJ.exists_lookup ha'
        rw [(hJ.remarked a).nChainTx] at hlinked
        exact ⟨a, ha, hlinked, hbetter⟩
  refine { toSteady := hsteady, kept := fun {k a'} ha' hlinked hgood hbetter =>
    mem_readdCandidates.mpr (.inr ⟨a', ha', ?_, hlinked, hbetter⟩) }
  have hcomplete := (hsteady.accounts.linked_iff ha').mp hlinked
  have hstored := (hsteady.stored ha').mpr (hcomplete a' (hsteady.tree.self_mem_ancestors ha'))
  rw [isValid, hgood]
  exact decide_eq_true hstored

/-! ## `ReconsiderBlock` -/

/-- The ancestor at the height of an entry is that entry exactly for its descendants. -/
theorem getAncestor_any_iff (hm : I.IsTree) (hp : I.Has p.hashBlock p) {a : CBlockIndex}
    (ha : I.Has k a) :
    ((a.getAncestor I p.nHeight).any fun b => b.hashBlock = p.hashBlock) = true ↔
      p ∈ a.ancestors I := by
  rw [Option.any_eq_true]
  constructor
  · rintro ⟨b, hb, hhash⟩
    have hmem := mem_of_find?_eq_some hb
    rwa [← hm.eq_of_hashBlock (hm.lookup_ancestor ha hmem) hp (of_decide_eq_true hhash)]
  · intro hmem
    cases hfind : a.getAncestor I p.nHeight with
    | none => exact absurd (decide_eq_true rfl) (find?_eq_none.mp hfind p hmem)
    | some b =>
      -- There is one ancestor at each height.
      have hbmem := mem_of_find?_eq_some hfind
      have hheight : b.nHeight = p.nHeight := by
        have hsome := find?_some (by rwa [getAncestor] at hfind)
        exact of_decide_eq_true hsome
      have hb := (hm.getElem?_reverse_ancestors ha).2 b hbmem
      rw [hheight, (hm.getElem?_reverse_ancestors ha).2 p hmem, some.injEq] at hb
      exact ⟨b, rfl, decide_eq_true (by rw [hb])⟩

/-- The marks are taken off the descendants of an entry. -/
def clearBelow (I : ChainIndex) (p a : CBlockIndex) : CBlockIndex :=
  if p ∈ a.ancestors I then a.clearFailed else a

theorem clearFailed_of_unmarked {a : CBlockIndex} (h : a.nStatus.failed = false) :
    a.clearFailed = a := by
  rw [failed, Bool.or_eq_false_iff] at h
  have hstatus : { a.nStatus with failedValid := false, failedChild := false } = a.nStatus := by
    cases hs : a.nStatus with
    | mk valid haveData haveUndo failedValid failedChild =>
      rw [hs] at h
      obtain ⟨rfl, rfl⟩ := h
      rfl
  rw [clearFailed, hstatus]

/-- **What `ReconsiderBlock` does to the entries**, if no proper ancestor is marked. -/
theorem change_reconsiderBlock (hm : I.IsTree) (hp : I.Has p.hashBlock p)
    (hclean : ∀ a ∈ p.ancestors I, a ≠ p → a.nStatus.failed = false) :
    Change I (I.reconsiderBlock p) (I.clearBelow p) := by
  refine Change.of_map (fun k => ?_) (fun a => ?_) rfl
  · show ((I.mapBlockIndex.mapEntries _).mapEntries _).lookup k = _
    rw [BlockMap.lookup_mapEntries, BlockMap.lookup_mapEntries]
    cases ha : I.mapBlockIndex.lookup k with
    | none => rfl
    | some a =>
      rw [map_some, map_some, map_some, some.injEq]
      have hdesc := getAncestor_any_iff hm hp ha
      -- Taking the marks off a second time, or off an unmarked entry, changes nothing.
      have htwice : a.clearFailed.clearFailed = a.clearFailed := rfl
      by_cases hin : p ∈ a.ancestors I
      · have hfirst : (if I.reconsidered p a then a.clearFailed else a) = a.clearFailed := by
          cases hrec : I.reconsidered p a with
          | true => rfl
          | false =>
            rw [reconsidered, hdesc.mpr hin, Bool.and_true, Bool.not_eq_false', isValid,
              Bool.and_eq_true, Bool.not_eq_true'] at hrec
            exact (clearFailed_of_unmarked hrec.1).symm
        rw [hfirst, htwice, ite_self, clearBelow, if_pos hin]
      · have hnot : I.reconsidered p a = false := by
          rw [reconsidered, Bool.and_eq_false_iff]
          refine .inr ?_
          rw [← Bool.not_eq_true]
          exact fun hyes => hin (hdesc.mp hyes)
        rw [hnot, if_neg Bool.false_ne_true, clearBelow]
        split
        · rename_i habove
          obtain ⟨b, hb, heq⟩ := mem_map.mp habove
          cases hm.eq_of_hashBlock (hm.lookup_ancestor hp hb) ha heq
          refine clearFailed_of_unmarked (hclean _ hb ?_)
          rintro rfl
          exact hin (hm.self_mem_ancestors hp)
        · rfl
  · unfold clearBelow
    split
    · exact ⟨rfl, rfl⟩
    · exact Remarked.refl a

/-- The candidates after `ReconsiderBlock`. -/
theorem mem_reconsiderBlock :
    k ∈ (I.reconsiderBlock p).setBlockIndexCandidates ↔ k ∈ I.setBlockIndexCandidates ∨
      ∃ a, I.Has k a ∧ I.reconsidered p a = true ∧
        a.clearFailed.isValid BLOCK_VALID_TRANSACTIONS = true ∧ a.nChainTx ≠ 0 ∧
        (I.chainTip.any fun tip => I.workLess tip a) = true := by
  rw [reconsiderBlock, mem_foldl_candidates]
  simp [and_assoc]

/-- **`ReconsiderBlock` keeps an index consistent**, if no proper ancestor of the block is
marked. -/
theorem Consistent.reconsiderBlock (h : I.Consistent genesis) (hp : I.Has p.hashBlock p)
    (hclean : ∀ a ∈ p.ancestors I, a ≠ p → a.nStatus.failed = false) :
    (I.reconsiderBlock p).Consistent genesis := by
  have hm := h.tree
  have hc := change_reconsiderBlock hm hp hclean
  obtain ⟨tip, htip, huse, -⟩ := h.chain
  have hless : ∀ a, (I.clearBelow p a).nStatus.failed = true →
      p ∉ a.ancestors I ∧ a.nStatus.failed = true := by
    intro a hfail
    unfold clearBelow at hfail
    split at hfail
    · cases hfail
    · rename_i hnot
      exact ⟨hnot, hfail⟩
  have hsteady : (I.reconsiderBlock p).Steady genesis := by
    refine h.toSteady.of_marks hc rfl rfl (fun a => ?_) (fun {k a} ha hfail => ?_)
      (fun {t} ht huse a ha => ?_) (fun {k} hin => ?_)
    · unfold clearBelow
      split <;> rfl
    · -- The invalid ancestor is not below the block either.
      obtain ⟨hnot, hbad⟩ := hless a hfail
      obtain ⟨b, hb, hvalid⟩ := (h.entry ha).failed hbad
      refine ⟨I.clearBelow p b,
        (hc.mem_ancestors_iff hm ha (hm.lookup_ancestor ha hb)).mpr hb, ?_⟩
      rw [clearBelow, if_neg fun hin => hnot (hm.ancestors_subset ha hb hin)]
      exact hvalid
    · rw [← Bool.not_eq_true]
      intro hfail
      have hgood := huse.unmarked a ha
      rw [(hless a hfail).2] at hgood
      cases hgood
    · rcases mem_reconsiderBlock.mp hin with hin | ⟨a, ha, -, -, hlink, hbetter⟩
      · exact .inl hin
      · refine .inr ⟨a, ha, hlink, ?_⟩
        rw [htip.chainTip hm, any_some, workLess_iff] at hbetter
        exact (notWorse_iff htip hm).mpr hbetter.le
  refine { toSteady := hsteady, kept := fun {k a'} ha' hlinked hgood hbetter => ?_ }
  obtain ⟨a, ha, rfl⟩ := hc.exists_lookup ha'
  rw [(hc.remarked a).nChainTx] at hlinked
  have hbetter' := (hc.notWorse_iff hm htip rfl).mp hbetter
  rw [mem_reconsiderBlock]
  cases hbad : a.nStatus.failed with
  | false => exact .inl (h.kept ha hlinked hbad hbetter')
  | true =>
    -- The entry was marked, so it is below the block, and it is not the tip.
    have hin : p ∈ a.ancestors I := by
      by_contra hnot
      rw [clearBelow, if_neg hnot, hbad] at hgood
      cases hgood
    have hdata := (h.accounts.linked_iff ha).mp hlinked a (hm.self_mem_ancestors ha)
    refine .inr ⟨a, ha, ?_, ?_, hlinked, ?_⟩
    · rw [reconsidered, (getAncestor_any_iff hm hp ha).mpr hin, isValid, hbad]
      rfl
    · have hstored := (h.stored ha).mpr hdata
      exact decide_eq_true hstored
    · rw [htip.chainTip hm, any_some, workLess_iff]
      refine lt_of_le_of_ne ((notWorse_iff htip hm).mp hbetter') fun heq => ?_
      cases hm.eq_of_hashBlock htip.entry ha (hashBlock_eq_of_rank_eq I heq)
      have hgood' := huse.unmarked _ (hm.self_mem_ancestors ha)
      rw [hbad] at hgood'
      cases hgood'

end ChainIndex

end Passion
