import Passion.Chain.Arrival
import Passion.Chain.Invalidation
import Passion.Validation.AcceptBlock

/-!
# Accepting a block into the index

`AcceptBlock` over a node that reorganizes its chain by `ReconsiderBlock` and `ActivateBestChain`,
and what it leaves of the block index. It may fail at many places, and at each of them the index is
consistent if it was before.
-/

namespace Passion

open CBlockIndex ChainIndex Persistent

variable {connects : Uint256 → Bool} {I J K : ChainIndex}

/-! ## No entry is taken out of the index -/

namespace ChainIndex

/-- Every block that has an entry in the one index has one in the other. -/
def KeepsEntries (I J : ChainIndex) : Prop :=
  ∀ k, k ∈ I.mapBlockIndex → k ∈ J.mapBlockIndex

namespace KeepsEntries

theorem of_same_map (hmap : J.mapBlockIndex = I.mapBlockIndex) : KeepsEntries I J := by
  intro k hk
  rwa [hmap]

theorem trans (h : KeepsEntries I J) (h' : KeepsEntries J K) : KeepsEntries I K :=
  fun k hk => h' k (h k hk)

theorem mem_modify {m : BlockMap} {k hash : Uint256} {f : CBlockIndex → CBlockIndex} (hk : k ∈ m) :
    k ∈ m.modify hash f := by
  rw [← AList.lookup_isSome] at hk ⊢
  rw [BlockMap.lookup_modify]
  split <;> simpa using hk

theorem modify (I : ChainIndex) (hash : Uint256) (f : CBlockIndex → CBlockIndex) :
    KeepsEntries I (I.modify hash f) :=
  fun _ => mem_modify

theorem dropCandidate (I : ChainIndex) (pindexNew pindexTest : CBlockIndex) :
    KeepsEntries I (I.dropCandidate pindexNew pindexTest) := by
  have hfold : ∀ (failed : List CBlockIndex) (m : BlockMap) k, k ∈ m →
      k ∈ failed.foldl (fun m p => m.modify p.hashBlock markFailedChild) m := by
    intro failed
    induction failed with
    | nil => exact fun _ _ hk => hk
    | cons p failed ih => exact fun m k hk => ih _ k (mem_modify hk)
  intro k hk
  unfold ChainIndex.dropCandidate
  dsimp only
  split
  · exact hfold _ _ k hk
  · exact hk

variable {c : Option CBlockIndex}

theorem findMostWorkLoop {n : ℕ} (h : ChainIndex.findMostWorkLoop n I = some (J, c)) :
    KeepsEntries I J := by
  fun_induction ChainIndex.findMostWorkLoop n I with
  | case1 => cases h
  | case2 =>
    cases h
    exact of_same_map rfl
  | case3 => cases h
  | case4 =>
    cases h
    exact of_same_map rfl
  | case5 _ I p _ t _ ih => exact (dropCandidate I p t).trans (ih h)

theorem pruneBlockIndexCandidates (h : I.pruneBlockIndexCandidates = some J) :
    KeepsEntries I J := by
  rw [pruneBlockIndexCandidates_eq_some h]
  exact of_same_map rfl

variable {b : Bool}

theorem connectTip {p : CBlockIndex} (h : I.connectTip connects p = some (J, b)) :
    KeepsEntries I J := by
  unfold ChainIndex.connectTip at h
  split at h
  · cases h
  · split at h
    · cases h
      exact modify I _ _
    · cases h
      exact modify I _ _

variable {blocks : List CBlockIndex} {old : Option CBlockIndex}

theorem connectBlocks {lowest : CBlockIndex} {r : Progress}
    (h : ChainIndex.connectBlocks connects old lowest blocks I = some (J, r)) :
    KeepsEntries I J := by
  fun_induction ChainIndex.connectBlocks connects old lowest blocks I with
  | case1 =>
    cases h
    exact of_same_map rfl
  | case2 => cases h
  | case3 _ _ I K hK =>
    cases h
    have hkeep : KeepsEntries I K := connectTip hK
    exact hkeep.trans (of_same_map rfl)
  | case4 => cases h
  | case5 _ _ _ _ hK _ hL =>
    cases h
    exact (connectTip hK).trans (pruneBlockIndexCandidates hL)
  | case6 _ _ _ _ hK _ hL _ ih =>
    exact ((connectTip hK).trans (pruneBlockIndexCandidates hL)).trans (ih h)

theorem connectChunks {n : ℕ} (h : ChainIndex.connectChunks connects old n blocks I = some (J, b)) :
    KeepsEntries I J := by
  fun_induction ChainIndex.connectChunks connects old n blocks I with
  | case1 | case2 =>
    cases h
    exact of_same_map rfl
  | case3 => cases h
  | case4 _ _ _ _ _ hK ih => exact (connectBlocks hK).trans (ih h)
  | case5 _ _ _ _ _ hK | case6 _ _ _ _ _ hK =>
    cases h
    exact connectBlocks hK

theorem activateBestChainStep {c : CBlockIndex}
    (h : I.activateBestChainStep connects c = some (J, b)) : KeepsEntries I J := by
  unfold ChainIndex.activateBestChainStep at h
  split at h
  · rename_i fork _
    have hcut : KeepsEntries I (I.disconnectTo fork) := of_same_map rfl
    exact hcut.trans (connectChunks h)
  · split at h
    · exact connectChunks h
    · cases h

/-- The choice of the block to work towards. -/
theorem mostWork {hash : Option Uint256} (h : (match hash with
      | none => I.findMostWorkChain
      | some hash => some (I, I.mapBlockIndex.lookup hash)) = some (J, c)) : KeepsEntries I J := by
  split at h
  · exact findMostWorkLoop h
  · cases h
    exact of_same_map rfl

theorem activateLoop {n : ℕ} {start : Option Uint256} {hash : Option Uint256}
    (h : ChainIndex.activateLoop connects n start b hash I = some J) : KeepsEntries I J := by
  fun_induction ChainIndex.activateLoop connects n start b hash I with
  | case1 | case2 => cases h
  | case3 _ _ _ _ _ _ hK _ ih => exact (mostWork hK).trans (ih h)
  | case4 _ _ _ _ _ _ hK | case5 _ _ _ _ _ _ _ hK =>
    cases h
    exact mostWork hK
  | case6 => cases h
  | case7 _ _ _ _ _ _ _ hK _ _ _ hL _ _ _ ih | case9 _ _ _ _ _ _ _ hK _ _ _ hL _ _ _ _ ih =>
    exact ((mostWork hK).trans (activateBestChainStep hL)).trans (ih h)
  | case8 _ _ _ _ _ _ _ hK _ _ _ hL =>
    cases h
    exact (mostWork hK).trans (activateBestChainStep hL)

theorem reconsiderBlock (I : ChainIndex) (p : CBlockIndex) :
    KeepsEntries I (I.reconsiderBlock p) := by
  intro k hk
  rw [← AList.lookup_isSome] at hk ⊢
  show (((I.mapBlockIndex.mapEntries _).mapEntries _).lookup k).isSome = true
  rw [BlockMap.lookup_mapEntries, BlockMap.lookup_mapEntries, Option.isSome_map, Option.isSome_map]
  exact hk

end KeepsEntries

end ChainIndex

/-- **How a node reorganizes its chain**: what `ConnectTip` finds of a block is given by
`connects`, and the loops have a number of turns. -/
def chainOps (connects : Uint256 → Bool) (turns : ℕ) : ChainOps where
  reconsiderBlock := fun pindex N => (true, N.setIndex (N.index.reconsiderBlock pindex))
  activateBestChain := fun _ N =>
    match N.index.activateBestChain connects turns with
    | some J => (.ok (), N.setIndex J)
    | none => (.error (.assertion "ActivateBestChain"), N)
  reconsider_keeps := fun pindex N => KeepsEntries.reconsiderBlock N.index pindex
  activate_keeps := by
    intro _ N k hk
    unfold exec
    dsimp only
    split
    · rename_i J hJ
      exact KeepsEntries.activateLoop hJ k hk
    · exact hk

/-! ## What a step of the node may be given -/

namespace ChainIndex

/-- No ancestor of the block is marked as failed. -/
def AncestorsUnmarked (I : ChainIndex) (p : CBlockIndex) : Prop :=
  ∀ a ∈ p.ancestors I.mapBlockIndex, a ≠ p → a.nStatus.failed = false

section Consistent

variable {genesis : Uint256}

/-- The first block has no parent, and its chain is there. -/
theorem Consistent.lookup_genesis (h : I.Consistent genesis) :
    ∃ r, I.Has genesis r ∧ r.pprev = none ∧
      r.nStatus.haveData = true := by
  obtain ⟨tip, htip, huse, -⟩ := h.chain
  obtain ⟨r, hr, hroot⟩ := h.tree.exists_root htip.entry
  have hlook := h.tree.lookup_ancestor htip.entry hr
  have hkey := (h.entry hlook).root hroot
  exact ⟨r, by rw [← hkey]; exact hlook, hroot, huse.complete r hr⟩

/-- A step marks complete blocks only. -/
theorem Step.complete_of_marked (hm : I.mapBlockIndex.IsTree) (hstep : Step connects I J)
    {k : Uint256} {p p' : CBlockIndex} (hp : I.mapBlockIndex.lookup k = some p)
    (hp' : J.mapBlockIndex.lookup k = some p') (hgood : p.nStatus.failed = false)
    (hmarked : p'.nStatus.failed = true) : p.Complete I := by
  have hsame : J.mapBlockIndex = I.mapBlockIndex → p.Complete I := by
    intro hmap
    rw [hmap, hp] at hp'
    cases hp'
    rw [hgood] at hmarked
    cases hmarked
  cases hstep with
  | note b => exact hsame rfl
  | cut _ _ => exact hsame rfl
  | @drop t above _ _ habove =>
    cases (marking_dropAbove hm t above).lookup hp |>.symm.trans hp'
    unfold markAbove at hmarked
    split at hmarked
    · rename_i hin
      obtain ⟨a, ha, heq⟩ := List.mem_map.mp hin
      obtain ⟨hlook, -, hcomplete⟩ := habove a ha
      cases hm.eq_of_hashBlock hlook hp heq
      exact hcomplete
    · rw [hgood] at hmarked
      cases hmarked
  | connect hnext _ hprune =>
    cases ((hnext.connected hm hprune).lookup hp).symm.trans hp'
    rw [changeAt_connected_failed, hgood] at hmarked
    cases hmarked
  | @fail tip x hnext _ =>
    cases ((marking_fail hm x).lookup hp).symm.trans hp'
    unfold changeAt at hmarked
    split at hmarked
    · rename_i heq
      cases hm.eq_of_hashBlock hp hnext.entry heq
      exact hnext.usable.complete
    · rw [hgood] at hmarked
      cases hmarked

/-- **A reorganisation marks complete blocks only.** -/
theorem Steps.exists_change (h : I.Steady genesis) (hsteps : Steps connects I J) :
    ∃ f, Change I J f ∧ ∀ {k p}, I.Has k p → p.nStatus.failed = false →
      (f p).nStatus.failed = true → p.Complete I := by
  induction hsteps with
  | refl =>
    refine ⟨id, Change.of_same_map rfl rfl, fun _ hgood hmarked => ?_⟩
    rw [id, hgood] at hmarked
    cases hmarked
  | @tail K L hbefore hstep ih =>
    obtain ⟨f, hf, hcomplete⟩ := ih
    have hK := h.steps hbefore
    obtain ⟨g, hg⟩ := hstep.exists_marking hK.tree
    refine ⟨g ∘ f, hf.trans hg.toChange, fun {k p} hp hgood hmarked => ?_⟩
    have hpK := hf.lookup hp
    cases hfp : (f p).nStatus.failed with
    | true => exact hcomplete hp hgood hfp
    | false =>
      refine (hf.complete_iff h.tree hp).mp ?_
      exact hstep.complete_of_marked hK.tree hpK (hg.lookup hpK) hfp hmarked

end Consistent

end ChainIndex

end Passion
