import Passion.Chain.Consistency

/-!
# Blocks arriving at a consistent index

The header of a block makes an entry without data, which is no candidate. A block whose data is
invalid is marked, and has no data still. `ReceivedBlockTransactions` links a block and the
descendants that wait for it, and makes those candidates that are good enough. This keeps the index
consistent if the block adds work and its transactions can be counted.
-/

namespace Passion

open List CBlockIndex ChainIndex
open BlockStatus hiding none

namespace ChainIndex

/-! ## What arrivals leave alone -/

/-- An entry keeps its place, its work and its marks, and does not lose its data or its
validity level. -/
structure Refits (p p' : CBlockIndex) : Prop where
  hashBlock : p'.hashBlock = p.hashBlock
  pprev : p'.pprev = p.pprev
  nHeight : p'.nHeight = p.nHeight
  nChainWork : p'.nChainWork = p.nChainWork
  haveData : p.nStatus.haveData = true → p'.nStatus.haveData = true
  failedValid : p'.nStatus.failedValid = p.nStatus.failedValid
  failedChild : p'.nStatus.failedChild = p.nStatus.failedChild
  valid_le : p.nStatus.valid ≤ p'.nStatus.valid
  /-- The level does not rise to that of a connected block. -/
  valid_low : BLOCK_VALID_CHAIN ≤ p'.nStatus.valid → BLOCK_VALID_CHAIN ≤ p.nStatus.valid

theorem Refits.refl (p : CBlockIndex) : Refits p p :=
  ⟨rfl, rfl, rfl, rfl, id, rfl, rfl, le_refl _, id⟩

/-- Linking touches the totals and the sequence number only. -/
theorem Refits.linked (m : BlockMap) (nSequenceId : ℕ) (p : CBlockIndex) :
    Refits p (p.linked m nSequenceId) :=
  ⟨rfl, rfl, rfl, rfl, id, rfl, rfl, le_refl _, id⟩

theorem Refits.received (block : CBlock) (p : CBlockIndex) : Refits p (p.received block) := by
  have hno : ¬ BLOCK_VALID_CHAIN ≤ BLOCK_VALID_TRANSACTIONS := by decide
  unfold CBlockIndex.received
  rw [raise_eq]
  refine ⟨rfl, rfl, rfl, rfl, fun _ => rfl, rfl, rfl, ?_, ?_⟩ <;> dsimp only <;> split
  · exact le_refl _
  · exact le_max_left _ _
  · exact id
  · exact fun hle => (le_max_iff.mp hle).resolve_right hno

/-- The entries of the index are refitted by `f`. -/
structure Refit (I J : ChainIndex) (f : CBlockIndex → CBlockIndex) : Prop
    extends InPlace I J f where
  refits : ∀ p, Refits p (f p)
  active : J.chainActive = I.chainActive

variable {f : CBlockIndex → CBlockIndex}

/-- One entry is changed. -/
theorem Refit.of_insert {I J : ChainIndex} {hash : Uint256} {p : CBlockIndex}
    (hm : I.IsTree) (hp : I.Has hash p)
    (hf : ∀ a, Refits a (f a)) (hmap : J.mapBlockIndex = I.mapBlockIndex.insert hash (f p))
    (hactive : J.chainActive = I.chainActive) (haddress : J.address = I.address) :
    Refit I J (changeAt hash f) where
  map := fun k => by rw [hmap, hm.lookup_insert hp]
  place := by
    refine KeepsPlace.changeAt ?_ hash
    rintro a _ rfl
    exact ⟨(hf a).hashBlock, (hf a).pprev, (hf a).nHeight⟩
  address := haddress
  refits := by
    intro a
    unfold changeAt
    split
    · exact hf a
    · exact Refits.refl a
  active := hactive

/-- **Arrivals keep the frame.** -/
theorem Refit.framed {genesis : Uint256} {I J : ChainIndex} (h : Refit I J f)
    (hI : I.Framed genesis) : J.Framed genesis := by
  have hm := hI.tree
  have hrise : ∀ p, p.nStatus.valid ≤ (f p).nStatus.valid := fun p => (h.refits p).valid_le
  have hmarks : ∀ p, (f p).nStatus.failed = p.nStatus.failed := by
    intro p
    rw [failed, failed, (h.refits p).failedValid, (h.refits p).failedChild]
  obtain ⟨tip, htip, huse, hscripts⟩ := hI.chain
  refine hI.of_inPlace h.toInPlace ⟨hrise, fun hp hle => ?_, fun {hash p} hp hfail => ?_, f tip,
    h.isChain hm htip h.active, ⟨?_, ?_⟩, h.allAtLeast hm htip.entry hrise hscripts⟩
    fun p => (h.refits p).nChainWork
  · exact h.allAtLeast hm hp hrise ((hI.entry hp).validated ((h.refits _).valid_low hle))
  · rw [hmarks] at hfail
    refine h.hasInvalid hm hp (fun a ha => ?_) ((hI.entry hp).failed hfail)
    rwa [(h.refits a).failedValid]
  · rw [Complete, h.ancestors hm htip.entry, forall_mem_map]
    exact fun a ha => (h.refits a).haveData (huse.complete a ha)
  · rw [Unmarked, h.ancestors hm htip.entry, forall_mem_map]
    exact fun a ha => (hmarks a).trans (huse.unmarked a ha)

/-! ## Linking -/

/-- **The index while blocks are linked.** -/
structure Placed (genesis : Uint256) (I : ChainIndex) : Prop extends Settled genesis I where
  linkedTip : ∀ {tip}, I.IsChain tip → tip.nChainTx ≠ 0
  kept : I.KeepsCandidates

variable {genesis hash : Uint256} {I J : ChainIndex} {p : CBlockIndex} {block : CBlock}

theorem Consistent.placed (h : I.Consistent genesis) : I.Placed genesis where
  toSettled := h.toSettled
  linkedTip := by
    intro tip htip
    obtain ⟨t, ht, huse, -⟩ := h.chain
    cases htip.unique ht h.tree
    exact (h.accounts.linked_iff htip.entry).mpr huse.complete
  kept := h.kept

section

variable (h : I.Placed genesis)

include h

/-- When all that can be linked is linked, the index is consistent. -/
theorem Placed.consistent (hacc : I.Accounted) : I.Consistent genesis where
  toSettled := h.toSettled
  accounts := hacc
  kept := h.kept

/-- The entries change in place at one hash, whose entry was not linked. -/
theorem Placed.insert (hp : I.Has hash p) (hzero : p.nChainTx = 0)
    {f : CBlockIndex → CBlockIndex} (hc : Refit I J (changeAt hash f))
    (hseq : (f p).nChainTx = 0 → (f p).nSequenceId = 0)
    (hstored : BLOCK_VALID_TRANSACTIONS ≤ (f p).nStatus.valid ↔ (f p).nStatus.haveData = true)
    (hsub : ∀ {k}, k ∈ J.setBlockIndexCandidates → k ∈ I.setBlockIndexCandidates ∨
      (k = hash ∧ (f p).nChainTx ≠ 0 ∧ J.NotWorse (f p)))
    (hsup : I.setBlockIndexCandidates ⊆ J.setBlockIndexCandidates)
    (hkept : (f p).nChainTx ≠ 0 → J.NotWorse (f p) → hash ∈ J.setBlockIndexCandidates) :
    J.Placed genesis := by
  have hm := h.tree
  have hself : changeAt hash f p = f p := by rw [changeAt, if_pos (hm.key hp)]
  have hother : ∀ {k a}, I.Has k a → a.nChainTx ≠ 0 → changeAt hash f a = a := by
    intro k a ha hlinked
    refine changeAt_of_ne fun heq => hlinked ?_
    rw [hm.eq_of_hashBlock ha hp (heq.trans (hm.key hp).symm), hzero]
  -- The tip is linked, and is the same entry as before.
  obtain ⟨tip, htip, -⟩ := h.chain
  have htipsame := hother htip.entry (h.linkedTip htip)
  have htipJ : J.IsChain tip := by
    have hchain := hc.isChain hm htip hc.active
    rwa [htipsame] at hchain
  have hworse : ∀ a, J.NotWorse a ↔ I.NotWorse a := by
    intro a
    have hrank : ∀ b, J.rank b = I.rank b := by
      intro b
      rw [rank, rank, hc.address]
    rw [notWorse_iff htipJ (hc.isTree hm), notWorse_iff htip hm, hrank, hrank]
  have hcases : ∀ {k a'}, J.Has k a' → (k = hash ∧ a' = f p) ∨ (k ≠ hash ∧ I.Has k a') := by
    intro k a' ha'
    obtain ⟨a, ha, rfl⟩ := hc.exists_lookup ha'
    by_cases hk : k = hash
    · subst hk
      cases hp.symm.trans ha
      exact .inl ⟨rfl, hself⟩
    · rw [changeAt_of_ne (by rwa [hm.key ha])]
      exact .inr ⟨hk, ha⟩
  refine { toFramed := hc.framed h.toFramed, sequence := ?_, stored := ?_, candidates := ?_,
           linkedTip := ?_, kept := ?_ }
  · intro k a' ha'
    rcases hcases ha' with ⟨-, rfl⟩ | ⟨-, ha⟩
    · exact hseq
    · exact h.sequence ha
  · intro k a' ha'
    rcases hcases ha' with ⟨-, rfl⟩ | ⟨-, ha⟩
    · exact hstored
    · exact h.stored ha
  · intro k hk
    rcases hsub hk with hin | ⟨rfl, hlinked, hbetter⟩
    · obtain ⟨a, ha, hlinked, hbetter⟩ := h.candidates hin
      refine ⟨a, ?_, hlinked, (hworse a).mpr hbetter⟩
      have hlook := hc.lookup ha
      rwa [hother ha hlinked] at hlook
    · refine ⟨f p, ?_, hlinked, hbetter⟩
      have hlook := hc.lookup hp
      rwa [hself] at hlook
  · intro tip' htip'
    rw [htipJ.unique htip' (hc.isTree hm)]
    exact h.linkedTip htip
  · intro k a' ha' hlinked hgood hbetter
    rcases hcases ha' with ⟨rfl, rfl⟩ | ⟨-, ha⟩
    · exact hkept hlinked hbetter
    · exact hsup (h.kept ha hlinked hgood ((hworse a').mp hbetter))

/-- **One turn of the loop of `ReceivedBlockTransactions`.** -/
theorem Placed.linkBlock (hp : I.Has hash p) (hzero : p.nChainTx = 0)
    (hlinked : (p.linked I I.nBlockSequenceId).nChainTx ≠ 0) :
    (ChainIndex.linkBlock hash I).Placed genesis := by
  have hm := h.tree
  have hstored := h.stored hp
  unfold ChainIndex.linkBlock
  simp only [hp]
  split
  · rename_i hworse
    refine h.insert hp hzero (Refit.of_insert hm hp (Refits.linked _ _) rfl rfl rfl)
      (fun hz => absurd hz hlinked) hstored
      (.inl) (Subset.refl _) (fun _ hbetter => ?_)
    rw [NotWorse, hworse] at hbetter
    cases hbetter
  · rename_i hbetter
    rw [Bool.not_eq_true] at hbetter
    refine h.insert hp hzero (Refit.of_insert hm hp (Refits.linked _ _) rfl rfl rfl)
      (fun hz => absurd hz hlinked) hstored
      (fun hk => ?_) (fun k hk => ?_) (fun _ _ => ?_)
    · rcases mem_insert_iff.mp hk with rfl | hk
      · exact .inr ⟨rfl, hlinked, hbetter⟩
      · exact .inl hk
    · exact mem_insert_of_mem hk
    · exact mem_insert_self

theorem Placed.setUnlinked (waiting : List (Uint256 × Uint256)) :
    { I with mapBlocksUnlinked := waiting }.Placed genesis where
  tree := h.tree
  entry := by
    intro hash p hp
    have hentry := h.entry hp
    exact ⟨hentry.root, hentry.work, hentry.known, hentry.validated, hentry.failed⟩
  chain := by
    obtain ⟨tip, htip, hrest⟩ := h.chain
    exact ⟨tip, ⟨htip.entry, htip.active⟩, hrest⟩
  linkedTip := fun htip => h.linkedTip ⟨htip.entry, htip.active⟩
  sequence := h.sequence
  stored := h.stored
  candidates := h.candidates
  kept := h.kept

/-- The loop of `ReceivedBlockTransactions`. -/
theorem Placed.linkBlocks (hlink : Linking [hash] I.mapBlocksUnlinked I) :
    (ChainIndex.linkBlocks hash I).Placed genesis := by
  have hend := Worklist.drain_invariant ChainIndex.linkBlock (fun queue waiting J =>
      Linking queue waiting J ∧ J.Placed genesis)
    (fun k queue waiting J hJ => by
      obtain ⟨hJlink, hJplaced⟩ := hJ
      obtain ⟨p, hready, hzero⟩ := hJlink.queued mem_cons_self
      have htotals := hasTotals_linked hJlink.toTotals hready
      refine ⟨?_, hJplaced.linkBlock hready.entry hzero ?_⟩
      · rw [linkBlock_mapBlockIndex hready.entry]
        exact hJlink.turn hready htotals
      · rw [htotals.nChainTx]
        exact hJlink.toTotals.chainTxs_ne_zero hready)
    (I.mapBlocksUnlinked.length + 1) [hash] I.mapBlocksUnlinked I (by simp [add_comm]) ⟨hlink, h⟩
  exact hend.2.setUnlinked _

end

/-! ## The data of a block -/

theorem transactions_le_received (block : CBlock) {p : CBlockIndex}
    (hgood : p.nStatus.failed = false) :
    BLOCK_VALID_TRANSACTIONS ≤ (p.received block).nStatus.valid := by
  have hgood' : failed { p.nStatus with haveData := true } = false := hgood
  rw [received, raise_eq, hgood']
  exact le_max_right _ _

/-- **`ReceivedBlockTransactions` keeps an index consistent.** -/
theorem Consistent.receivedBlockTransactions (h : I.Consistent genesis)
    (hp : I.Has hash p) (hdata : p.nStatus.haveData = false)
    (hgood : p.nStatus.failed = false) (hparent : I.ParentUsable p) (hvtx : block.vtx ≠ [])
    (hroom : I.RoomFor hash block) :
    (ChainIndex.receivedBlockTransactions block hash I).Consistent genesis := by
  have hm := h.tree
  have hacc := receivedBlockTransactions_accounted h.accounts hp hdata hparent hvtx hroom
  have hzero : p.nChainTx = 0 := by
    by_contra hlinked
    have hcomplete := (h.accounts.linked_iff hp).mp hlinked
    rw [hcomplete p (hm.self_mem_ancestors hp)] at hdata
    cases hdata
  have hplaced : ∀ {J : ChainIndex},
      J.mapBlockIndex = I.mapBlockIndex.insert hash (p.received block) →
      J.chainActive = I.chainActive → J.address = I.address →
      J.setBlockIndexCandidates = I.setBlockIndexCandidates → J.Placed genesis := by
    intro J hJ hactive haddress hcand
    have hseq : (p.received block).nSequenceId = 0 := by
      have hfirst := h.sequence hp hzero
      exact hfirst
    refine h.placed.insert hp hzero
      (Refit.of_insert hm hp (Refits.received block) hJ hactive haddress) (fun _ => hseq)
      ⟨fun _ => received_haveData block p, fun _ => transactions_le_received block hgood⟩
      (fun hk => .inl ?_) ?_ ((absurd rfl))
    · rwa [hcand] at hk
    · rw [hcand]
      exact Subset.refl _
  have hfirst : { I with
      mapBlockIndex := I.mapBlockIndex.insert hash (p.received block) }.Placed genesis :=
    hplaced rfl rfl rfl rfl
  refine Placed.consistent ?_ hacc
  unfold ChainIndex.receivedBlockTransactions
  simp only [hp]
  rw [prev_received hp hm]
  have hlinking := h.accounts.linking_received hp hdata hvtx hroom
  cases hprev : p.pprev with
  | none =>
    have hnone : p.prev I = none := by simp [CBlockIndex.prev, hprev]
    simp only [hnone]
    exact hfirst.linkBlocks (hlinking fun g q hg => by rw [hprev] at hg; cases hg)
  | some g =>
    obtain ⟨q, hq, -⟩ := hm.parent hp hprev
    have hsome : p.prev I = some q := by simp [CBlockIndex.prev, hprev, hq]
    simp only [hsome]
    split
    · rename_i hlinked
      refine hfirst.linkBlocks (hlinking fun g' q' hg' hq' => ?_)
      cases hprev.symm.trans hg'
      cases hq.symm.trans hq'
      exact hlinked
    · split
      · exact hplaced rfl rfl rfl rfl
      · exact hplaced rfl rfl rfl rfl

/-! ## The header of a block, and an invalid block -/

/-- **`AddToBlockIndex` keeps an index consistent**, if the block adds work to that of its
parent. -/
theorem Consistent.addToBlockIndex (h : I.Consistent genesis) {t : BlockTree}
    (hentry : NewEntry I hash block p) (hext : I.mapBlockIndex.Extends t.mapBlockIndex hash p)
    {q : CBlockIndex} (hparent : I.Has block.hashPrevBlock q)
    (hwork : q.nChainWork.toNat < p.nChainWork.toNat) :
    { I with toBlockTree := t }.Consistent genesis := by
  have hm := h.tree
  have hacc : { I with toBlockTree := t }.Accounted := hentry.linking h.accounts hext
  have hmJ : t.mapBlockIndex.IsTree := hacc.tree
  have hprev : p.pprev = some block.hashPrevBlock := by
    rw [hentry.pprev, hparent]
    rfl
  have hanc : ∀ {k a}, I.Has k a →
      a.ancestors t.mapBlockIndex = a.ancestors I := hext.ancestors hm hmJ
  have hvalid : p.nStatus.valid = BLOCK_VALID_TREE := by rw [hentry.nStatus]; rfl
  have hgood : p.nStatus.failed = false := by rw [hentry.nStatus]; rfl
  obtain ⟨tip, htip, huse, hscripts⟩ := h.chain
  have htipJ : { I with toBlockTree := t }.IsChain tip :=
    ⟨hext.keep htip.entry, by rw [hanc htip.entry]; exact htip.active⟩
  have hworse : ∀ a, { I with toBlockTree := t }.NotWorse a ↔ I.NotWorse a := by
    intro a
    rw [notWorse_iff htipJ hmJ, notWorse_iff htip hm]
    rfl
  refine ⟨⟨⟨⟨hmJ, fun {k a} ha => ?_, tip, htipJ, ⟨?_, ?_⟩, ?_⟩, ?_, ?_, ?_⟩, hacc⟩, ?_⟩
  · rcases hext.cases ha with ⟨-, rfl⟩ | ha
    · refine ⟨fun hroot => ?_, fun {g b} hg hb => ?_, hvalid.ge, fun hle => ?_, fun hfail => ?_⟩
      · rw [hprev] at hroot
        cases hroot
      · cases hprev.symm.trans hg
        cases (hext.keep hparent).symm.trans hb
        exact hwork
      · rw [hvalid] at hle
        exact absurd hle (by decide)
      · rw [hgood] at hfail
        cases hfail
    · have hold := h.entry ha
      refine ⟨hold.root, fun {g b} hg hb => ?_, hold.known, ?_, ?_⟩
      · obtain ⟨b', hb', -⟩ := hm.parent ha hg
        cases (hext.keep hb').symm.trans hb
        exact hold.work hg hb'
      · rw [AllAtLeast, hanc ha]
        exact hold.validated
      · rw [HasInvalid, hanc ha]
        exact hold.failed
  · rw [Complete, hanc htip.entry]
    exact huse.complete
  · rw [Unmarked, hanc htip.entry]
    exact huse.unmarked
  · rw [AllAtLeast, hanc htip.entry]
    exact hscripts
  · intro k a ha hzero
    rcases hext.cases ha with ⟨-, rfl⟩ | ha
    · exact hentry.nSequenceId
    · exact h.sequence ha hzero
  · intro k a ha
    rcases hext.cases ha with ⟨-, rfl⟩ | ha
    · rw [hvalid, hentry.haveData]
      exact ⟨fun hle => absurd hle (by decide), Bool.noConfusion⟩
    · exact h.stored ha
  · intro k hk
    obtain ⟨a, ha, hlinked, hbetter⟩ := h.candidates hk
    exact ⟨a, hext.keep ha, hlinked, (hworse a).mpr hbetter⟩
  · intro k a ha hlinked hclean hbetter
    rcases hext.cases ha with ⟨-, rfl⟩ | ha
    · exact absurd hentry.nChainTx hlinked
    · exact h.kept ha hlinked hclean ((hworse a).mp hbetter)

/-- **Marking a block without data keeps an index consistent.** -/
theorem Consistent.failedBlock (h : I.Consistent genesis)
    (hp : I.Has hash p) (hdata : p.nStatus.haveData = false) (hJ : ∀ k, J.mapBlockIndex.lookup k =
      (I.mapBlockIndex.lookup k).map (changeAt hash markFailedValid))
    (hunlinked : J.mapBlocksUnlinked = I.mapBlocksUnlinked)
    (hactive : J.chainActive = I.chainActive) (haddress : J.address = I.address)
    (hcand : J.setBlockIndexCandidates = I.setBlockIndexCandidates) : J.Consistent genesis := by
  have hm := h.tree
  have hc : Change I J (changeAt hash markFailedValid) :=
    Change.of_map hJ (Remarked.changeAt Remarked.markFailedValid hash) haddress
  obtain ⟨tip, htip, -⟩ := h.chain
  have hsteady : J.Steady genesis := by
    refine h.toSteady.of_failedValid hc hunlinked hactive (fun {tip} htip huse a ha heq => ?_)
      (by rw [hcand]; exact Subset.refl _)
    -- The active chain has its data.
    cases hm.eq_of_hashBlock (hm.lookup_ancestor htip.entry ha) hp
      (heq.trans (hm.key hp).symm)
    rw [huse.complete _ ha] at hdata
    cases hdata
  refine { toSteady := hsteady, kept := fun {k a'} ha' hlinked hgood hbetter => ?_ }
  obtain ⟨a, ha, rfl⟩ := hc.exists_lookup ha'
  have hne : a.hashBlock ≠ hash := by
    intro heq
    rw [changeAt, if_pos heq] at hgood
    cases hgood
  rw [changeAt_of_ne hne] at hlinked hgood
  rw [hcand]
  exact h.kept ha hlinked hgood ((hc.notWorse_iff hm htip hactive).mp hbetter)

end ChainIndex

end Passion
