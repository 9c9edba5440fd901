import Passion.Chain.ActivationStep

/-!
# What a reorganisation keeps

While `ActivateBestChain` is at work the candidates are not all there, and a failed attempt may
leave the node on a worse tip than it started from. What stays is that every block as good as the
first tip is a candidate or is beaten by all that are left. As long as no block of the chain the
node started from is marked, there is a candidate left.
-/

namespace Passion

open CBlockIndex List

namespace ChainIndex

variable {connects : Uint256 → Bool} {I J : ChainIndex} {tip x t : CBlockIndex}

/-! ## What a step does -/

/-- The change `dropAbove` makes to an entry. -/
def markAbove (above : List CBlockIndex) (p : CBlockIndex) : CBlockIndex :=
  if p.hashBlock ∈ above.map (·.hashBlock) then p.markFailedChild else p

section

variable (hm : I.IsTree)

include hm

theorem change_foldl_markFailedChild (above : List CBlockIndex) :
    Change I { I with
      mapBlockIndex := above.foldl (fun m p => m.modify p.hashBlock markFailedChild)
        I } (markAbove above) := by
  induction above generalizing I with
  | nil =>
    exact Change.of_same_map rfl rfl
  | cons x above ih =>
    have hfirst : Change I (I.modify x.hashBlock markFailedChild)
        (changeAt x.hashBlock markFailedChild) :=
      Change.of_modify hm Remarked.markFailedChild rfl rfl
    have hcomp : markAbove above ∘ changeAt x.hashBlock markFailedChild =
        markAbove (x :: above) := by
      funext p
      -- A second mark changes nothing.
      have htwice : p.markFailedChild.markFailedChild = p.markFailedChild := rfl
      by_cases hx : p.hashBlock = x.hashBlock
      · simp [markAbove, changeAt, hx, htwice]
      · simp [markAbove, changeAt, hx]
    rw [← hcomp]
    exact (hfirst.trans (ih (hfirst.isTree hm))).congr rfl rfl

theorem marking_dropAbove (t : CBlockIndex) (above : List CBlockIndex) :
    Marking I (I.dropAbove t above) (markAbove above) where
  toChange := (change_foldl_markFailedChild hm above).congr rfl rfl
  keeps := by
    intro p hfail
    unfold markAbove
    split
    · exact Bool.or_true _
    · exact hfail

/-- What `dropAbove` marks has the failed block in its chain. -/
theorem markAbove_of_unmarked {above : List CBlockIndex} {k : Uint256} {p a : CBlockIndex}
    (hfailed : t.nStatus.failed = true) (habove : ∀ p ∈ above, I.Has p.hashBlock p ∧
      t ∈ p.ancestors I ∧ p.Complete I) (hp : I.Has k p)
    (hun : p.Unmarked I) (ha : a ∈ p.ancestors I) : markAbove above a = a := by
  refine if_neg fun hmem => ?_
  obtain ⟨b, hb, heq⟩ := mem_map.mp hmem
  obtain ⟨hlook, hin, -⟩ := habove b hb
  cases hm.eq_of_hashBlock hlook (hm.lookup_ancestor hp ha) heq
  have hgood := hun t (hm.ancestors_subset hp ha hin)
  rw [hfailed] at hgood
  cases hgood

theorem marking_extend (x : CBlockIndex) :
    Marking I (I.extend x) (changeAt x.hashBlock connected) :=
  Marking.of_modify hm Remarked.connected (fun p hfail => by rwa [connected_failed]) rfl rfl

theorem marking_fail (x : CBlockIndex) :
    Marking I ((I.modify x.hashBlock markFailedValid).eraseCandidate x.hashBlock)
      (changeAt x.hashBlock markFailedValid) :=
  Marking.of_modify hm Remarked.markFailedValid (fun _ _ => rfl) rfl rfl

end

theorem changeAt_connected_failed (hash : Uint256) (p : CBlockIndex) :
    (changeAt hash connected p).nStatus.failed = p.nStatus.failed :=
  apply_changeAt (g := fun p => p.nStatus.failed) connected_failed hash p

/-- A block connected to the tip is the new tip. -/
theorem Next.extend (h : I.Next tip x) (hm : I.IsTree) : (I.extend x).IsChain x.connected := by
  have hchange := marking_extend hm x
  have hself : changeAt x.hashBlock connected x = x.connected := changeAt_self x
  have hhash : (fun p => p.hashBlock) ∘ changeAt x.hashBlock connected =
      fun p => p.hashBlock := funext hchange.hashBlock
  refine ⟨?_, ?_⟩
  · rw [← hself, hchange.hashBlock]
    exact hchange.lookup h.entry
  · rw [← hself, hchange.ancestors hm h.entry, map_map, hhash,
      hm.ancestors_child h.entry h.pprev h.chain.entry, map_cons, reverse_cons,
      ← h.chain.active]
    rfl

/-- What is left of the candidates when a block was connected to the tip. -/
theorem Next.mem_of_prune (h : I.Next tip x) (hm : I.IsTree) {hash : Uint256}
    {p : CBlockIndex} (hp : I.Has hash p) :
    hash ∈ (I.extend x).setBlockIndexCandidates.filter (fun h =>
      !((I.extend x).mapBlockIndex.lookup h).any fun p =>
        (I.extend x).chainTip.any fun tip => (I.extend x).workLess p tip) ↔
      hash ∈ I.setBlockIndexCandidates ∧ I.rank x ≤ I.rank p := by
  have hchange := marking_extend hm x
  have hnew := (h.extend hm).chainTip (hchange.isTree hm)
  have hself : changeAt x.hashBlock connected x = x.connected := changeAt_self x
  rw [mem_filter, hchange.lookup hp, hnew, Option.any_some, Option.any_some, Bool.not_eq_true',
    ← Bool.not_eq_true, workLess_iff, ← hself, hchange.rank, hchange.rank, not_lt]
  rfl

theorem pruneBlockIndexCandidates_eq_some (h : I.pruneBlockIndexCandidates = some J) :
    J = { I with setBlockIndexCandidates := I.setBlockIndexCandidates.filter fun h =>
      !(I.mapBlockIndex.lookup h).any fun p => I.chainTip.any fun tip => I.workLess p tip } := by
  unfold pruneBlockIndexCandidates at h
  dsimp only at h
  split at h
  · cases h
  · exact (Option.some.inj h).symm

/-- **A block was connected to the tip**, and the candidates that are worse were dropped. -/
structure Connected (I J : ChainIndex) (x : CBlockIndex) : Prop
    extends Marking I J (changeAt x.hashBlock connected) where
  unlinked : J.mapBlocksUnlinked = I.mapBlocksUnlinked
  chain : J.IsChain (changeAt x.hashBlock connected x)
  subset : J.setBlockIndexCandidates ⊆ I.setBlockIndexCandidates
  mem_iff : ∀ {hash p}, I.mapBlockIndex.lookup hash = some p →
    (hash ∈ J.setBlockIndexCandidates ↔ hash ∈ I.setBlockIndexCandidates ∧ I.rank x ≤ I.rank p)

theorem Next.connected (h : I.Next tip x) (hm : I.IsTree)
    (hprune : (I.extend x).pruneBlockIndexCandidates = some J) : Connected I J x := by
  have hext := h.extend hm
  have hc := marking_extend hm x
  rw [pruneBlockIndexCandidates_eq_some hprune]
  refine ⟨⟨hc.toChange.congr rfl rfl, hc.keeps⟩, rfl, ?_, filter_subset_self _, h.mem_of_prune hm⟩
  rw [changeAt_self]
  exact ⟨hext.entry, hext.active⟩

/-! ## The invariant -/

/-- The verdict of `ConnectTip`, where the blocks of the first chain are taken for good. -/
def trusting (first : List Uint256) (connects : Uint256 → Bool) (hash : Uint256) : Bool :=
  connects hash || first.contains hash

/-- A block of the first chain is marked. -/
def FirstMarked (first : List Uint256) (I : ChainIndex) : Prop :=
  ∃ hash ∈ first, ∃ p, I.mapBlockIndex.lookup hash = some p ∧ p.nStatus.failed = true

/-- The blocks of the active chain are taken for good. -/
theorem IsChain.connectable (h : I.IsChain tip) (hm : I.IsTree) (huse : tip.Usable I) :
    tip.Connectable (trusting I.chainActive connects) I where
  toUsable := huse
  connects := by
    intro a ha _
    have hin := (h.mem_chainActive_iff hm (hm.lookup_ancestor h.entry ha)).mpr ha
    rw [trusting, contains_iff_mem.mpr hin, Bool.or_true]

/-- **A block to work towards**: a candidate with a usable chain, and no candidate is better. -/
structure Target (I : ChainIndex) (c : CBlockIndex) : Prop where
  entry : I.mapBlockIndex.lookup c.hashBlock = some c
  candidate : c.hashBlock ∈ I.setBlockIndexCandidates
  usable : c.Usable I
  best : ∀ {g y}, g ∈ I.setBlockIndexCandidates → I.mapBlockIndex.lookup g = some y →
    I.rank y ≤ I.rank c

/-- **The state of the index while a reorganisation is at work.** `first` is the chain it started
from and `r₀` the rank of its tip; the blocks that are `Eligible` were candidates then, if they
were good enough. -/
structure Working (connects : Uint256 → Bool) (first : List Uint256) (Eligible : Uint256 → Prop)
    (r₀ : ℕ ×ₗ (ℕᵒᵈ ×ₗ ℕᵒᵈ)) (I : ChainIndex) : Prop where
  tree : I.mapBlockIndex.IsTree
  counted : ∀ {hash p}, I.mapBlockIndex.lookup hash = some p → p.Complete I →
    p.nChainTx ≠ 0
  root : ∀ {hash p hash' p'}, I.mapBlockIndex.lookup hash = some p → p.pprev = none →
    I.mapBlockIndex.lookup hash' = some p' → p'.pprev = none → hash = hash'
  chain : ∃ tip, I.IsChain tip ∧ tip.Connectable (trusting first connects) I
  candidates : ∀ {hash}, hash ∈ I.setBlockIndexCandidates →
    ∃ p, I.mapBlockIndex.lookup hash = some p ∧ p.Complete I ∧ r₀ ≤ I.rank p
  eligible : ∀ {hash p}, I.mapBlockIndex.lookup hash = some p → p.Unmarked I →
    Eligible hash
  /-- What is good enough is a candidate, or is beaten by all that are left. -/
  kept : ∀ {hash p}, I.mapBlockIndex.lookup hash = some p → Eligible hash →
    p.Complete I → p.nStatus.failed = false → r₀ ≤ I.rank p →
    hash ∈ I.setBlockIndexCandidates ∨ ∀ {g y}, g ∈ I.setBlockIndexCandidates →
      I.mapBlockIndex.lookup g = some y → I.rank p < I.rank y
  /-- A candidate is left that will not be marked before the first chain is. -/
  alive : I.FirstMarked first ∨ ∃ g y, g ∈ I.setBlockIndexCandidates ∧
    I.mapBlockIndex.lookup g = some y ∧ y.Connectable (trusting first connects) I

namespace Working

variable {first : List Uint256} {Eligible : Uint256 → Prop} {r₀ : ℕ ×ₗ (ℕᵒᵈ ×ₗ ℕᵒᵈ)}
variable {f : CBlockIndex → CBlockIndex} {c : CBlockIndex}

variable (h : Working connects first Eligible r₀ I)

include h

/-- **A change of marks keeps the invariant** if it takes candidates away only, and none but
those it marks and those that are beaten. -/
theorem of_marking (hc : Marking I J f)
    (hchain : ∃ tip, J.IsChain tip ∧ tip.Connectable (trusting first connects) J)
    (hsub : J.setBlockIndexCandidates ⊆ I.setBlockIndexCandidates)
    (hkeep : ∀ {hash p}, I.Has hash p → hash ∈ I.setBlockIndexCandidates →
      (f p).nStatus.failed = false → hash ∈ J.setBlockIndexCandidates ∨
        ∀ {g y}, g ∈ J.setBlockIndexCandidates → I.Has g y → I.rank p < I.rank y)
    (halive : ∀ {g y}, g ∈ I.setBlockIndexCandidates → I.Has g y →
      y.Connectable (trusting first connects) I → J.FirstMarked first ∨
        ∃ g y, g ∈ J.setBlockIndexCandidates ∧ J.Has g y ∧
          y.Connectable (trusting first connects) J) :
    Working connects first Eligible r₀ J where
  tree := hc.isTree h.tree
  counted := by
    intro hash p' hp' hcomplete
    obtain ⟨p, hp, rfl⟩ := hc.exists_lookup hp'
    rw [(hc.remarked p).nChainTx]
    exact h.counted hp ((hc.complete_iff h.tree hp).mp hcomplete)
  root := by
    intro hash p' hash' q' hp' hprev hq' hprev'
    obtain ⟨p, hp, rfl⟩ := hc.exists_lookup hp'
    obtain ⟨q, hq, rfl⟩ := hc.exists_lookup hq'
    rw [(hc.remarked p).pprev] at hprev
    rw [(hc.remarked q).pprev] at hprev'
    exact h.root hp hprev hq hprev'
  chain := hchain
  candidates := by
    intro hash hin
    obtain ⟨p, hp, hcomplete, hrank⟩ := h.candidates (hsub hin)
    exact ⟨f p, hc.lookup hp, (hc.complete_iff h.tree hp).mpr hcomplete, by rwa [hc.rank]⟩
  eligible := by
    intro hash p' hp' hun
    obtain ⟨p, hp, rfl⟩ := hc.exists_lookup hp'
    exact h.eligible hp (hc.unmarked h.tree hp hun)
  kept := by
    intro hash p' hp' hel hcomplete hfailed hrank
    obtain ⟨p, hp, rfl⟩ := hc.exists_lookup hp'
    rw [hc.rank] at hrank
    have hbeaten : (∀ {g y}, g ∈ J.setBlockIndexCandidates → I.Has g y → I.rank p < I.rank y) →
        ∀ {g y}, g ∈ J.setBlockIndexCandidates → J.Has g y → J.rank (f p) < J.rank y := by
      intro hall g y' hg hy'
      obtain ⟨y, hy, rfl⟩ := hc.exists_lookup hy'
      rw [hc.rank, hc.rank]
      exact hall hg hy
    rcases h.kept hp hel ((hc.complete_iff h.tree hp).mp hcomplete) (hc.not_failed hfailed) hrank with
      hin | hall
    · exact (hkeep hp hin hfailed).imp_right hbeaten
    · exact .inr (hbeaten fun hg hy => hall (hsub hg) hy)
  alive := by
    rcases h.alive with ⟨hash, hfirst, p, hp, hfailed⟩ | ⟨g, y, hg, hy, hconn⟩
    · exact .inl ⟨hash, hfirst, f p, hc.lookup hp, hc.keeps p hfailed⟩
    · exact halive hg hy hconn

/-- A usable block is a candidate or is beaten, if it is good enough. -/
theorem kept_of_usable {hash : Uint256} {p : CBlockIndex}
    (hp : I.Has hash p) (huse : p.Usable I) (hrank : r₀ ≤ I.rank p) :
    hash ∈ I.setBlockIndexCandidates ∨ ∀ {g y}, g ∈ I.setBlockIndexCandidates →
      I.Has g y → I.rank p < I.rank y :=
  h.kept hp (h.eligible hp huse.unmarked) huse.complete
    (huse.unmarked p (h.tree.self_mem_ancestors hp)) hrank

/-- The target is not worse than the first tip. -/
theorem le_target (htarget : I.Target c) : r₀ ≤ I.rank c := by
  obtain ⟨c', hc', -, hfirst⟩ := h.candidates htarget.candidate
  cases htarget.entry.symm.trans hc'
  exact hfirst

/-- **No usable block beats the target.** -/
theorem rank_le_target (htarget : I.Target c) {hash : Uint256} {p : CBlockIndex}
    (hp : I.Has hash p) (huse : p.Usable I) : I.rank p ≤ I.rank c := by
  rcases le_total r₀ (I.rank p) with hrank | hrank
  · rcases h.kept_of_usable hp huse hrank with hin | hall
    · exact htarget.best hin hp
    · exact (hall htarget.candidate htarget.entry).le
  · exact hrank.trans (h.le_target htarget)

/-- After a block was connected on the way to a target there is a candidate left. -/
theorem exists_prune (htarget : I.Target c) (hnext : I.Next tip x) :
    ∃ J, (I.extend x).pruneBlockIndexCandidates = some J := by
  have hin := (hnext.mem_of_prune h.tree htarget.entry).mpr
    ⟨htarget.candidate, h.rank_le_target htarget hnext.entry hnext.usable⟩
  unfold pruneBlockIndexCandidates
  rw [if_neg]
  · exact ⟨_, rfl⟩
  · rw [List.isEmpty_iff]
    exact ne_nil_of_mem hin

/-- **Candidates above a failed block are dropped.** What is not marked then has no block of them
below it. -/
theorem step_drop {t : CBlockIndex} {above : List CBlockIndex} (ht : I.Has t.hashBlock t)
    (hfailed : t.nStatus.failed = true) (habove : ∀ p ∈ above, I.Has p.hashBlock p ∧
      t ∈ p.ancestors I ∧ p.Complete I) :
    Working connects first Eligible r₀ (I.dropAbove t above) := by
  have hm := h.tree
  obtain ⟨tip, htip, hconn⟩ := h.chain
  have hc := marking_dropAbove hm t above
  have hclean : ∀ {hash p}, I.Has hash p → p.Unmarked I →
      ∀ a ∈ p.ancestors I, (markAbove above a).nStatus.failed = false := by
    intro hash p hp hun a ha
    rw [markAbove_of_unmarked hm hfailed habove hp hun ha]
    exact hun a ha
  have hkeep : ∀ {hash p}, I.Has hash p → hash ∈ I.setBlockIndexCandidates →
      (markAbove above p).nStatus.failed = false →
      hash ∈ (I.dropAbove t above).setBlockIndexCandidates := by
    intro hash p hp hin hgood
    refine mem_filter.mpr ⟨hin, decide_eq_true ⟨fun hmem => ?_, fun heq => ?_⟩⟩
    · rw [markAbove, if_pos (by rwa [hm.key hp])] at hgood
      have hmarked : p.markFailedChild.nStatus.failed = true := Bool.or_true _
      rw [hmarked] at hgood
      cases hgood
    · rw [heq] at hp
      cases ht.symm.trans hp
      rw [hc.keeps t hfailed] at hgood
      cases hgood
  refine h.of_marking hc ⟨_, hc.isChain hm htip rfl, hc.connectable hm htip.entry hconn
      (hclean htip.entry hconn.unmarked)⟩ (filter_subset_self _)
    (fun hp hin hgood => .inl (hkeep hp hin hgood)) fun {g y} hg hy hgood => .inr ⟨g, _, ?_,
      hc.lookup hy, hc.connectable hm hy hgood (hclean hy hgood.unmarked)⟩
  exact hkeep hy hg (hclean hy hgood.unmarked y (hm.self_mem_ancestors hy))

/-- **A block is connected.** -/
theorem step_connect (hnext : I.Next tip x) (hconn : connects x.hashBlock = true)
    (hprune : (I.extend x).pruneBlockIndexCandidates = some J) :
    Working connects first Eligible r₀ J := by
  have hm := h.tree
  have hx := hnext.entry
  obtain ⟨tip₀, htip₀, hconn₀⟩ := h.chain
  cases htip₀.unique hnext.chain hm
  have hJ := hnext.connected hm hprune
  have hxconn := hnext.usable.connectable_of_parent hm hx hnext.pprev htip₀.entry hconn₀
    (show trusting first connects x.hashBlock = true by simp [trusting, hconn])
  have hmove : ∀ {hash p}, I.Has hash p → p.Connectable (trusting first connects) I →
      (changeAt x.hashBlock connected p).Connectable (trusting first connects) J := by
    intro hash p hp hgood
    refine hJ.connectable hm hp hgood fun a ha => ?_
    rw [changeAt_connected_failed]
    exact hgood.unmarked a ha
  refine h.of_marking hJ.toMarking ⟨_, hJ.chain, hmove hx hxconn⟩ hJ.subset
    (fun {hash p} hp hin _ => ?_) fun {g y} hg hy hgood => .inr ?_
  · rcases le_or_gt (I.rank x) (I.rank p) with hle | hlt
    · exact .inl ((hJ.mem_iff hp).mpr ⟨hin, hle⟩)
    · exact .inr fun hg hy => hlt.trans_le ((hJ.mem_iff hy).mp hg).2
  · rcases le_or_gt (I.rank x) (I.rank y) with hle | hlt
    · exact ⟨g, _, (hJ.mem_iff hy).mpr ⟨hg, hle⟩, hJ.lookup hy, hmove hy hgood⟩
    · -- The candidate is worse than the new tip, which is a candidate itself then.
      obtain ⟨y', hy', -, hrank⟩ := h.candidates hg
      cases hy.symm.trans hy'
      have hin := (h.kept_of_usable hx hnext.usable (hrank.trans hlt.le)).resolve_right
        fun hall => lt_asymm hlt (hall hg hy)
      exact ⟨_, _, (hJ.mem_iff hx).mpr ⟨hin, le_rfl⟩, hJ.lookup hx, hmove hx hxconn⟩

/-- **A block does not connect.** A chain that it is part of was trusted only if it belongs to the
first chain. -/
theorem step_fail (hnext : I.Next tip x) (hconn : connects x.hashBlock = false) :
    Working connects first Eligible r₀
      ((I.modify x.hashBlock markFailedValid).eraseCandidate x.hashBlock) := by
  have hm := h.tree
  have hx := hnext.entry
  obtain ⟨tip₀, htip₀, hconn₀⟩ := h.chain
  cases htip₀.unique hnext.chain hm
  have hc := marking_fail hm x
  have hclean : ∀ {hash p}, I.Has hash p → p.Unmarked I → x ∉ p.ancestors I →
      ∀ a ∈ p.ancestors I, (changeAt x.hashBlock markFailedValid a).nStatus.failed = false := by
    intro hash p hp hun hnot a ha
    rw [changeAt_of_ne fun heq => hnot (hm.eq_of_hashBlock (hm.lookup_ancestor hp ha) hx heq ▸ ha)]
    exact hun a ha
  have hkeep : ∀ {hash p}, I.Has hash p → hash ∈ I.setBlockIndexCandidates →
      (changeAt x.hashBlock markFailedValid p).nStatus.failed = false →
      hash ∈ (I.eraseCandidate x.hashBlock).setBlockIndexCandidates := by
    intro hash p hp hin hgood
    refine mem_filter.mpr ⟨hin, decide_eq_true fun heq => ?_⟩
    rw [changeAt, if_pos (by rw [hm.key hp, heq])] at hgood
    cases hgood
  have hchain := hclean htip₀.entry hconn₀.unmarked
    (hm.not_mem_ancestors_parent hx hnext.pprev htip₀.entry)
  refine h.of_marking hc ⟨_, hc.isChain hm htip₀ rfl, hc.connectable hm htip₀.entry hconn₀ hchain⟩
    (filter_subset_self _) (fun hp hin hgood => .inl (hkeep hp hin hgood))
    fun {g y} hg hy hgood => ?_
  by_cases hin : x ∈ y.ancestors I
  · have htrust := hgood.connects x hin (by rw [hnext.pprev]; exact Option.some_ne_none _)
    rw [trusting, hconn, Bool.false_or, contains_iff_mem] at htrust
    exact .inl ⟨_, htrust, _, hc.lookup hx, by rw [changeAt_self]; rfl⟩
  · have hy' := hclean hy hgood.unmarked hin
    exact .inr ⟨g, _, hkeep hy hg (hy' y (hm.self_mem_ancestors hy)), hc.lookup hy,
      hc.connectable hm hy hgood hy'⟩

/-- **Every step keeps the invariant.** -/
theorem step (hstep : Step connects I J) : Working connects first Eligible r₀ J := by
  have hm := h.tree
  obtain ⟨tip₀, htip₀, hconn₀⟩ := h.chain
  cases hstep with
  | note b =>
    have hc : Marking I { I with pindexBestInvalid := b } id := .of_same_map rfl rfl
    exact h.of_marking hc ⟨_, hc.isChain hm htip₀ rfl,
        hc.connectable hm htip₀.entry hconn₀ hconn₀.unmarked⟩ (List.Subset.refl _)
      (fun _ hin _ => .inl hin) fun hg hy hconn =>
        .inr ⟨_, _, hg, hc.lookup hy, hc.connectable hm hy hconn hconn.unmarked⟩
  | drop ht hfailed habove => exact h.step_drop ht hfailed habove
  | @cut tip fork htip hfork =>
    cases htip₀.unique htip hm
    exact h.of_marking (Marking.of_same_map rfl rfl)
      ⟨fork, htip.disconnectTo hm hfork, hconn₀.of_mem_ancestors hm htip.entry hfork⟩
      (List.Subset.refl _) (fun _ hin _ => .inl hin) fun hg hy hconn => .inr ⟨_, _, hg, hy, hconn⟩
  | connect hnext hconn hprune => exact h.step_connect hnext hconn hprune
  | fail hnext hconn => exact h.step_fail hnext hconn

theorem steps (hsteps : Steps connects I J) : Working connects first Eligible r₀ J := by
  induction hsteps with
  | refl => exact h
  | tail _ hstep ih => exact ih.step hstep

end Working

end ChainIndex

end Passion
