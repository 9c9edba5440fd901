import Passion.Chain.Reorganisation

/-!
# The loops of `ActivateBestChain`

`FindMostWorkChain` ends at the best candidate whose chain is usable. `ActivateBestChainStep` brings
the tip closer to it, or marks a block that does not connect. A block is marked once at most, and
between two marks the branch to the target gets shorter, so that the loops end.
-/

namespace Passion

open List CBlockIndex Option Finset

variable {connects : Uint256 → Bool} {first : List Uint256} {Eligible : Uint256 → Prop}
variable {r₀ : ℕ ×ₗ (ℕᵒᵈ ×ₗ ℕᵒᵈ)}
variable {I J : ChainIndex} {tip c x : CBlockIndex}

namespace ChainIndex

theorem Working.rooted (h : Working connects first Eligible r₀ I) : I.Rooted := by
  intro hash p hp hroot
  obtain ⟨tip, htip, -⟩ := h.chain
  obtain ⟨r, hr, hr0⟩ := h.tree.exists_root htip.entry
  have hlook := h.tree.lookup_ancestor htip.entry hr
  have heq := h.root hp hroot hlook hr0
  rw [heq, hlook] at hp
  cases hp
  exact (htip.chainContains_iff h.tree hlook).mpr hr

/-! ## `FindMostWorkChain` -/

/-- The best candidate is found, if there is one. -/
theorem Working.bestCandidate (h : Working connects first Eligible r₀ I) :
    (I.bestCandidate = none ∧ I.setBlockIndexCandidates = []) ∨
      ∃ c, I.bestCandidate = some c ∧ c.hashBlock ∈ I.setBlockIndexCandidates ∧
        I.Has c.hashBlock c ∧ c.Complete I ∧
        ∀ {g y}, g ∈ I.setBlockIndexCandidates → I.Has g y →
          I.rank y ≤ I.rank c := by
  have hin : ∀ {g y}, g ∈ I.setBlockIndexCandidates → I.Has g y →
      y ∈ I.setBlockIndexCandidates.filterMap I.mapBlockIndex.lookup :=
    fun hg hy => mem_filterMap.mpr ⟨_, hg, hy⟩
  cases hbest : I.bestCandidate with
  | none =>
    rw [ChainIndex.bestCandidate, argmax_eq_none] at hbest
    refine .inl ⟨rfl, eq_nil_iff_forall_not_mem.mpr fun g hg => ?_⟩
    obtain ⟨y, hy, -⟩ := h.candidates hg
    have hmem := hin hg hy
    rw [hbest] at hmem
    cases hmem
  | some c =>
    obtain ⟨k, hk, hc⟩ := mem_filterMap.mp (argmax_mem hbest)
    have hkey := h.tree.key hc
    obtain ⟨c', hc', hcomplete, -⟩ := h.candidates hk
    cases hc.symm.trans hc'
    rw [← hkey] at hk hc
    exact .inr ⟨c, rfl, hk, hc, hcomplete, fun hg hy => le_of_mem_argmax (hin hg hy) hbest⟩

/-- On a branch whose blocks all have their data, the walk stops at a failed block only. -/
theorem firstUnusable_cases {l : List CBlockIndex}
    (hall : ∀ p ∈ l, p.nChainTx ≠ 0 ∧ p.nStatus.haveData = true) :
    (firstUnusable l = some none ∧ ∀ p ∈ l, p.nStatus.failed = false) ∨
      ∃ pre t post, l = pre ++ t :: post ∧ firstUnusable l = some (some t) ∧
        t.nStatus.failed = true := by
  induction l with
  | nil => exact .inl ⟨rfl, fun p hp => absurd hp not_mem_nil⟩
  | cons x l ih =>
    obtain ⟨hlinked, hdata⟩ := hall x mem_cons_self
    have hassert : ¬ (x.nChainTx = 0 ∧ x.nHeight ≠ 0) := fun hbad => hlinked hbad.1
    rw [firstUnusable, if_neg hassert, hdata]
    cases hfailed : x.nStatus.failed with
    | true => exact .inr ⟨[], x, l, rfl, if_pos rfl, hfailed⟩
    | false =>
      rcases ih fun p hp => hall p (mem_cons_of_mem _ hp) with
        ⟨hnone, hgood⟩ | ⟨pre, t, post, hl, hsome, ht⟩
      · exact .inl ⟨hnone, forall_mem_cons.mpr ⟨hfailed, hgood⟩⟩
      · exact .inr ⟨x :: pre, t, post, by rw [hl, cons_append], hsome, ht⟩

/-- The blocks of a branch before a failed one, and the failed one itself. -/
theorem dropCandidate_eq {t : CBlockIndex} (ht : t.nStatus.failed = true) :
    I.dropCandidate c t = (I.invalidChainFound c).dropAbove t
      ((I.branch c).takeWhile fun p => p.hashBlock ≠ t.hashBlock) := by
  simp only [dropCandidate, ht]
  rfl

/-- **Dropping a candidate is a reorganisation step**, after which it is none any more. -/
theorem Working.dropCandidate (h : Working connects first Eligible r₀ I) (hc : I.Has c.hashBlock c)
    (hcand : c.hashBlock ∈ I.setBlockIndexCandidates) (hcomplete : c.Complete I) {t : CBlockIndex}
    {pre post : List CBlockIndex} (hbranch : I.branch c = pre ++ t :: post)
    (ht : t.nStatus.failed = true) :
    Steps connects I (I.dropCandidate c t) ∧
      (I.dropCandidate c t).setBlockIndexCandidates.length < I.setBlockIndexCandidates.length := by
  have hm := h.tree
  obtain ⟨fork, -, -, hpath, -, -⟩ := exists_fork hm h.rooted hc
  rw [hbranch, append_assoc, cons_append] at hpath
  have htmem : t ∈ c.ancestors I := by
    rw [hpath]
    exact mem_append_right _ mem_cons_self
  rw [dropCandidate_eq ht]
  refine ⟨(Relation.ReflTransGen.single (Step.note I _)).tail (Step.drop ?_ ht ?_), ?_⟩
  · exact hm.lookup_ancestor hc htmem
  · -- What stands before the failed block on the branch is above it.
    intro p hp
    have hpre : p ∈ pre := by
      rw [hbranch, takeWhile_append] at hp
      split at hp
      · rw [takeWhile_cons_of_neg (by simp), append_nil] at hp
        exact hp
      · exact ( takeWhile_prefix _).subset hp
    obtain ⟨l₁, l₂, rfl⟩ := append_of_mem hpre
    have hp' : p ∈ c.ancestors I := by
      rw [hpath]
      simp
    refine ⟨hm.lookup_ancestor hc hp', ?_,
      fun a ha => hcomplete a (hm.ancestors_subset hc hp' ha)⟩
    rw [append_assoc] at hpath
    rw [hm.ancestors_of_append hc hpath]
    simp
  · refine length_filter_lt_length_iff_exists.mpr ⟨c.hashBlock, hcand, ?_⟩
    -- The candidate is the first block of its branch.
    intro hkeep
    obtain ⟨hnot, hne⟩ := of_decide_eq_true hkeep
    have hhead := hm.head?_ancestors hc
    rw [hpath] at hhead
    rw [hbranch] at hnot
    cases pre with
    | nil =>
      rw [nil_append, head?_cons, some.injEq] at hhead
      exact hne (by rw [hhead])
    | cons y pre =>
      rw [cons_append, head?_cons, some.injEq] at hhead
      rw [hhead, cons_append, takeWhile_cons_of_pos (by simpa using hne)] at hnot
      exact hnot (mem_map.mpr ⟨c, mem_cons_self, rfl⟩)

/-- **`FindMostWorkChain` returns a target**, or there is no candidate left. -/
theorem Working.findMostWorkLoop {n : ℕ} (h : Working connects first Eligible r₀ I)
    (hlen : I.setBlockIndexCandidates.length < n) :
    ∃ J, Steps connects I J ∧
      ((ChainIndex.findMostWorkLoop n I = some (J, none) ∧ J.setBlockIndexCandidates = []) ∨
        ∃ c, ChainIndex.findMostWorkLoop n I = some (J, some c) ∧ J.Target c) := by
  induction n generalizing I with
  | zero => exact absurd hlen (Nat.not_lt_zero _)
  | succ n ih =>
    have hm := h.tree
    rw [ChainIndex.findMostWorkLoop]
    rcases h.bestCandidate with ⟨hnone, hempty⟩ | ⟨c, hbest, hcand, hc, hcomplete, hmax⟩
    · rw [hnone]
      exact ⟨I, .refl, .inl ⟨rfl, hempty⟩⟩
    obtain ⟨fork, -, hforkin, hpath, hforkmem, -⟩ := exists_fork hm h.rooted hc
    have hbranch : ∀ p ∈ I.branch c, p ∈ c.ancestors I := by
      intro p hp
      rw [hpath]
      exact mem_append_left _ hp
    have hdata : ∀ p ∈ I.branch c, p.nChainTx ≠ 0 ∧ p.nStatus.haveData = true := by
      intro p hp
      have hlook := hm.lookup_ancestor hc (hbranch p hp)
      refine ⟨h.counted hlook fun a ha => ?_, hcomplete p (hbranch p hp)⟩
      exact hcomplete a (hm.ancestors_subset hc (hbranch p hp) ha)
    rw [hbest]
    rcases firstUnusable_cases hdata with
      ⟨hnone, hgood⟩ | ⟨pre, t, post, hsplit, hsome, ht⟩
    · simp only [hnone]
      refine ⟨I, .refl, .inr ⟨c, rfl, hc, hcand, ⟨hcomplete, fun a ha => ?_⟩, hmax⟩⟩
      -- Below the fork the chain is active.
      obtain ⟨tip, htip, hconn⟩ := h.chain
      have hforklook := hm.lookup_ancestor hc hforkmem
      have hforktip := (htip.chainContains_iff hm hforklook).mp hforkin
      rw [hpath] at ha
      rcases mem_append.mp ha with ha | ha
      · exact hgood a ha
      · exact hconn.unmarked a (hm.ancestors_subset htip.entry hforktip ha)
    · simp only [hsome]
      obtain ⟨hsteps, hless⟩ := h.dropCandidate hc hcand hcomplete hsplit ht
      obtain ⟨J, hrest, hfound⟩ := ih (h.steps hsteps) (by omega)
      exact ⟨J, hsteps.trans hrest, hfound⟩

/-! ## Connecting blocks -/

/-- The blocks that are not marked. -/
def unmarkedBlocks (I : ChainIndex) : Finset Uint256 :=
  I.mapBlockIndex.keys.toFinset.filter fun h =>
    (I.mapBlockIndex.lookup h).any (fun p => !p.nStatus.failed) = true

theorem mem_unmarkedBlocks {hash : Uint256} :
    hash ∈ I.unmarkedBlocks ↔
      ∃ p, I.Has hash p ∧ p.nStatus.failed = false := by
  rw [unmarkedBlocks, Finset.mem_filter, List.mem_toFinset, Option.any_eq_true]
  constructor
  · rintro ⟨-, p, hp, hgood⟩
    exact ⟨p, hp, by simpa using hgood⟩
  · rintro ⟨p, hp, hgood⟩
    refine ⟨?_, p, hp, by simpa using hgood⟩
    exact AList.mem_keys.mp (AList.lookup_isSome.mp (by rw [hp]; rfl))

end ChainIndex

/-- Marks are only added. -/
theorem Marking.unmarkedBlocks_subset {f : CBlockIndex → CBlockIndex}
    (hc : Marking I J f) : J.unmarkedBlocks ⊆ I.unmarkedBlocks := by
  intro hash hin
  obtain ⟨p', hp', hgood⟩ := ChainIndex.mem_unmarkedBlocks.mp hin
  obtain ⟨p, hp, rfl⟩ := hc.exists_lookup hp'
  exact ChainIndex.mem_unmarkedBlocks.mpr ⟨p, hp, hc.not_failed hgood⟩

namespace ChainIndex

/-- Every step changes entries in their status only, and takes no mark away. -/
theorem Step.exists_marking (hstep : Step connects I J) (hm : I.IsTree) : ∃ f, Marking I J f := by
  cases hstep with
  | note b => exact ⟨id, Marking.of_same_map rfl rfl⟩
  | drop _ _ _ => exact ⟨_, marking_dropAbove hm _ _⟩
  | cut _ _ => exact ⟨id, Marking.of_same_map rfl rfl⟩
  | connect hnext _ hprune => exact ⟨_, (hnext.connected hm hprune).toMarking⟩
  | fail _ _ => exact ⟨_, marking_fail hm _⟩

theorem Steps.exists_marking (hsteps : Steps connects I J)
    (h : Working connects first Eligible r₀ I) : ∃ f, Marking I J f := by
  induction hsteps with
  | refl => exact ⟨id, Marking.of_same_map rfl rfl⟩
  | tail hbefore hstep ih =>
    obtain ⟨f, hc⟩ := ih
    obtain ⟨g, hc'⟩ := hstep.exists_marking (h.steps hbefore).tree
    exact ⟨g ∘ f, hc.trans hc'⟩

theorem Steps.unmarkedBlocks_subset (hsteps : Steps connects I J)
    (h : Working connects first Eligible r₀ I) : J.unmarkedBlocks ⊆ I.unmarkedBlocks := by
  obtain ⟨f, hc⟩ := hsteps.exists_marking h
  exact hc.unmarkedBlocks_subset

/-- **The way up** from the tip to a target: the blocks still to connect. -/
structure Climb (I : ChainIndex) (tip c : CBlockIndex) (toConnect : List CBlockIndex) : Prop
    extends Target I c where
  chain : I.IsChain tip
  path : c.ancestors I = toConnect.reverse ++ tip.ancestors I

namespace Climb

variable {rest : List CBlockIndex}

theorem path_cons (h : I.Climb tip c (x :: rest)) :
    c.ancestors I = rest.reverse ++ x :: tip.ancestors I := by
  rw [h.path, reverse_cons, append_assoc, singleton_append]

theorem mem_ancestors (h : I.Climb tip c (x :: rest)) : x ∈ c.ancestors I := by
  rw [h.path_cons]
  exact mem_append_right _ mem_cons_self

section

variable (h : I.Climb tip c (x :: rest)) (hm : I.IsTree)

include h hm

theorem lookup : I.Has x.hashBlock x :=
  hm.lookup_ancestor h.entry h.mem_ancestors

/-- The next block to connect is a child of the tip. -/
theorem pprev : x.pprev = some tip.hashBlock := by
  have hanc := hm.ancestors_of_append h.entry h.path_cons
  have hhead := hm.head?_ancestors h.chain.entry
  cases hprev : x.pprev with
  | none =>
    rw [hm.ancestors_root (h.lookup hm) hprev, cons.injEq] at hanc
    rw [← hanc.2] at hhead
    cases hhead
  | some g =>
    obtain ⟨q, hq, -⟩ := hm.parent (h.lookup hm) hprev
    rw [hm.ancestors_child (h.lookup hm) hprev hq, cons.injEq] at hanc
    rw [← hanc.2, hm.head?_ancestors hq, some.injEq] at hhead
    rw [← hhead, hm.key hq]

/-- The blocks above the next one are other blocks. -/
theorem hashBlock_ne : ∀ y ∈ rest, y.hashBlock ≠ x.hashBlock := by
  obtain ⟨pre, hpre, hne⟩ := hm.exists_append_of_mem_ancestors h.entry h.mem_ancestors
  rw [hm.ancestors_of_append h.entry h.path_cons, h.path_cons] at hpre
  have heq := append_cancel_right hpre
  intro y hy
  exact (hne y (heq ▸ mem_reverse.mpr hy)).1

theorem next : I.Next tip x :=
  ⟨h.chain, h.lookup hm, h.pprev hm, h.usable.of_mem_ancestors hm h.entry h.mem_ancestors⟩

/-- When the next block was connected, the rest of the way is left. -/
theorem connect (hwork : Working connects first Eligible r₀ I)
    (hprune : (I.extend x).pruneBlockIndexCandidates = some J) :
    J.Climb (changeAt x.hashBlock connected x) (changeAt x.hashBlock connected c) rest := by
  have hnext := h.next hm
  have hJ := hnext.connected hm hprune
  have hrest : rest.map (changeAt x.hashBlock connected) = rest :=
    (map_congr_left fun y hy => changeAt_of_ne (h.hashBlock_ne hm y hy)).trans (map_id _)
  refine ⟨⟨?_, ?_, ?_, fun {g y'} hg hy' => ?_⟩, hJ.chain, ?_⟩
  · rw [hJ.hashBlock]
    exact hJ.lookup h.entry
  · rw [hJ.hashBlock, hJ.mem_iff h.entry]
    exact ⟨h.candidate, hwork.rank_le_target h.toTarget hnext.entry hnext.usable⟩
  · refine hJ.usable hm h.entry h.usable fun a ha => ?_
    rw [changeAt_connected_failed]
    exact h.usable.unmarked a ha
  · obtain ⟨y, hy, rfl⟩ := hJ.exists_lookup hy'
    rw [hJ.rank, hJ.rank]
    exact h.best (hJ.subset hg) hy
  · rw [hJ.ancestors hm h.entry, hJ.ancestors hm (h.lookup hm),
      hm.ancestors_of_append h.entry h.path_cons, h.path_cons, map_append, map_reverse, hrest]

end

/-- The branch is not longer than the way up. -/
theorem length_branch_le (h : I.Climb tip c rest) (hm : I.IsTree) :
    (I.branch c).length ≤ rest.length := by
  have hin := (h.chain.chainContains_iff hm h.chain.entry).mpr (hm.self_mem_ancestors h.chain.entry)
  obtain ⟨l, hl⟩ := head?_eq_some_iff.mp (hm.head?_ancestors h.chain.entry)
  rw [branch, h.path, hl, takeWhile_append]
  split
  · rw [takeWhile_cons_of_neg (by simp [hin]), append_nil, length_reverse]
  · exact ( takeWhile_prefix _).length_le.trans length_reverse.le

/-- At the end of the way up the block is the tip. -/
theorem isChain_of_nil (h : I.Climb tip c []) (hm : I.IsTree) : I.IsChain c := by
  have hhead := congrArg head? h.path
  rw [reverse_nil, nil_append, hm.head?_ancestors h.entry, hm.head?_ancestors h.chain.entry,
    some.injEq] at hhead
  rw [hhead]
  exact h.chain

end Climb

/-- What `ConnectTip` does to the next block on the way up. -/
theorem Climb.connectTip {rest : List CBlockIndex} (h : I.Climb tip c (x :: rest)) (hm : I.IsTree) :
    I.connectTip connects x = if connects x.hashBlock then some (I.extend x, true)
      else some (I.invalidBlockFound x, false) := by
  have hlast := h.chain.getLast? hm
  rw [ChainIndex.connectTip, if_neg (by rw [h.pprev hm, hlast]; simp)]
  rfl

/-- A block that does not connect is marked. -/
theorem Working.invalidBlockFound (h : Working connects first Eligible r₀ I) (hnext : I.Next tip x)
    (hconn : connects x.hashBlock = false) (lowest : CBlockIndex) :
    Steps connects I ((I.invalidBlockFound x).invalidChainFound lowest) ∧
      ((I.invalidBlockFound x).invalidChainFound lowest).unmarkedBlocks ⊂ I.unmarkedBlocks := by
  have hx := hnext.entry
  have hstep : Step connects I _ := Step.fail hnext hconn
  have hc := marking_fail h.tree x
  refine ⟨((Relation.ReflTransGen.single hstep).tail (Step.note _ _)).tail (Step.note _ _),
    (ssubset_iff_of_subset ?_).mpr ⟨x.hashBlock, ?_, fun hin => ?_⟩⟩
  · exact hc.unmarkedBlocks_subset
  · exact mem_unmarkedBlocks.mpr ⟨x, hx, hnext.usable.unmarked x (h.tree.self_mem_ancestors hx)⟩
  · obtain ⟨x', hx', hgood⟩ := mem_unmarkedBlocks.mp hin
    cases (hc.lookup hx).symm.trans hx'
    rw [changeAt_self] at hgood
    cases hgood

/-- **The loop over the blocks to connect**: a block is marked, or the tip moves up. -/
theorem Working.connectBlocks (old : Option CBlockIndex) (lowest : CBlockIndex)
    {l₁ l₂ : List CBlockIndex} (h : Working connects first Eligible r₀ I)
    (hclimb : I.Climb tip c (l₁ ++ l₂)) :
    ∃ J out, ChainIndex.connectBlocks connects old lowest l₁ I = some (J, out) ∧
      Steps connects I J ∧
      (out = .invalid → J.unmarkedBlocks ⊂ I.unmarkedBlocks) ∧
      (out ≠ .invalid → ∃ tip' c' rest, c'.hashBlock = c.hashBlock ∧
        J.Climb tip' c' rest ∧ (out = .goOn → rest = l₂) ∧
        (out = .better → rest.length < (l₁ ++ l₂).length)) := by
  induction l₁ generalizing I tip c with
  | nil =>
    refine ⟨I, .goOn, rfl, .refl, fun hout => ?_, fun _ => ⟨tip, c, l₂, rfl, hclimb, fun _ => rfl,
      fun hout => ?_⟩⟩
    · cases hout
    · cases hout
  | cons x l₁ ih =>
    have hm := h.tree
    have hnext := hclimb.next hm
    rw [ChainIndex.connectBlocks, hclimb.connectTip hm]
    cases hconn : connects x.hashBlock with
    | false =>
      obtain ⟨hsteps, hless⟩ := h.invalidBlockFound hnext hconn lowest
      exact ⟨_, .invalid, rfl, hsteps, fun _ => hless, (absurd rfl)⟩
    | true =>
      obtain ⟨J, hprune⟩ := h.exists_prune hclimb.toTarget hnext
      have hstep : Step connects I J := .connect hnext hconn hprune
      have hrest := hclimb.connect hm h hprune
      have hhash : (changeAt x.hashBlock connected c).hashBlock = c.hashBlock :=
        (Remarked.changeAt Remarked.connected _ c).hashBlock
      simp only [if_true, hprune]
      split
      · refine ⟨J, .better, rfl, .single hstep, fun hout => ?_, fun _ => ⟨_, _, l₁ ++ l₂,
          hhash, hrest, fun hout => ?_, fun _ => ?_⟩⟩
        · cases hout
        · cases hout
        · rw [cons_append, length_cons]
          omega
      · obtain ⟨K, out, hrun, hsteps, hinvalid, hvalid⟩ := ih (h.step hstep) hrest
        have hsingle : Steps connects I J := .single hstep
        refine ⟨K, out, hrun, hsingle.trans hsteps,
          fun hout => (hinvalid hout).trans_subset (hsingle.unmarkedBlocks_subset h),
          fun hout => ?_⟩
        obtain ⟨tip', c', rest, hc', hclimb', hgo, hbetter⟩ := hvalid hout
        refine ⟨tip', c', rest, hc'.trans hhash, hclimb', hgo, fun hout => ?_⟩
        have hlt := hbetter hout
        rw [cons_append, length_cons]
        omega

/-- The loop over the chunks. -/
theorem Working.connectChunks (old : Option CBlockIndex) {n : ℕ} {l : List CBlockIndex}
    (hlen : l.length ≤ n) (h : Working connects first Eligible r₀ I) (hclimb : I.Climb tip c l) :
    ∃ J invalid, ChainIndex.connectChunks connects old n l I = some (J, invalid) ∧
      Steps connects I J ∧ (invalid = true → J.unmarkedBlocks ⊂ I.unmarkedBlocks) ∧
      (invalid = false → ∃ tip' c' rest, c'.hashBlock = c.hashBlock ∧
        J.Climb tip' c' rest ∧ (rest = [] ∨ rest.length < l.length)) := by
  induction n generalizing l I tip c with
  | zero =>
    have hnil : l = [] := length_eq_zero_iff.mp (by omega)
    subst hnil
    exact ⟨I, false, rfl, .refl, Bool.noConfusion, fun _ => ⟨tip, c, [], rfl, hclimb, .inl rfl⟩⟩
  | succ n ih =>
    cases l with
    | nil =>
      exact ⟨I, false, rfl, .refl, Bool.noConfusion, fun _ => ⟨tip, c, [], rfl, hclimb, .inl rfl⟩⟩
    | cons lowest rest =>
      have hsplit : (lowest :: rest).take 32 ++ (lowest :: rest).drop 32 = lowest :: rest :=
        take_append_drop 32 _
      obtain ⟨J, out, hrun, hsteps, hinvalid, hvalid⟩ :=
        h.connectBlocks old lowest (hsplit ▸ hclimb)
      rw [ChainIndex.connectChunks, hrun]
      cases out with
      | invalid =>
        exact ⟨J, true, rfl, hsteps, fun _ => hinvalid rfl, Bool.noConfusion⟩
      | better =>
        obtain ⟨tip', c', l', hc', hclimb', -, hbetter⟩ := hvalid (by decide)
        refine ⟨J, false, rfl, hsteps, Bool.noConfusion, fun _ => ⟨tip', c', l', hc', hclimb', .inr ?_⟩⟩
        have hlt := hbetter rfl
        rwa [hsplit] at hlt
      | goOn =>
        obtain ⟨tip', c', l', hc', hclimb', hgo, -⟩ := hvalid (by decide)
        rw [hgo rfl] at hclimb'
        have hshort : ((lowest :: rest).drop 32).length < (lowest :: rest).length := by
          rw [length_drop, length_cons]
          omega
        rw [length_cons] at hlen hshort
        obtain ⟨K, invalid, hrun', hsteps', hinvalid', hvalid'⟩ :=
          ih (by omega) (h.steps hsteps) hclimb'
        refine ⟨K, invalid, hrun', hsteps.trans hsteps', fun hout => ?_, fun hout => ?_⟩
        · exact (hinvalid' hout).trans_subset (hsteps.unmarkedBlocks_subset h)
        · obtain ⟨tip'', c'', l'', hc'', hclimb'', hend⟩ := hvalid' hout
          refine ⟨tip'', c'', l'', hc''.trans hc', hclimb'', ?_⟩
          rcases hend with hend | hend
          · exact .inl hend
          · refine .inr ?_
            rw [length_cons]
            omega

/-- **`ActivateBestChainStep`**: a block is marked, or the tip comes closer to the target. -/
theorem Working.activateBestChainStep (h : Working connects first Eligible r₀ I) (htarget : I.Target c) :
    ∃ J invalid, ChainIndex.activateBestChainStep I connects c = some (J, invalid) ∧
      Steps connects I J ∧ (invalid = true → J.unmarkedBlocks ⊂ I.unmarkedBlocks) ∧
      (invalid = false → ∃ c', c'.hashBlock = c.hashBlock ∧ J.Target c' ∧
        (J.IsChain c' ∨ (J.branch c').length < (I.branch c).length)) := by
  have hm := h.tree
  obtain ⟨tip, htip, -⟩ := h.chain
  obtain ⟨fork, hfind, hforkin, hpath, hforkmem, -⟩ := exists_fork hm h.rooted htarget.entry
  have hforktip := (htip.chainContains_iff hm
    (hm.lookup_ancestor htarget.entry hforkmem)).mp hforkin
  have hcut : Step connects I (I.disconnectTo fork) := .cut htip hforktip
  have hclimb : (I.disconnectTo fork).Climb fork c (I.branch c).reverse :=
    ⟨⟨htarget.entry, htarget.candidate, htarget.usable, htarget.best⟩,
      htip.disconnectTo hm hforktip, by rw [reverse_reverse]; exact hpath⟩
  obtain ⟨J, invalid, hrun, hsteps, hinvalid, hvalid⟩ :=
    (h.step hcut).connectChunks I.chainTip le_rfl hclimb
  rw [ChainIndex.activateBestChainStep, hfind]
  have hall : Steps connects I J := (Relation.ReflTransGen.single hcut).trans hsteps
  refine ⟨J, invalid, hrun, hall, hinvalid, fun hout => ?_⟩
  obtain ⟨tip', c', rest, hc', hclimb', hend⟩ := hvalid hout
  have hmJ := (h.steps hall).tree
  refine ⟨c', hc', hclimb'.toTarget, ?_⟩
  rcases hend with rfl | hend
  · exact .inl (hclimb'.isChain_of_nil hmJ)
  · refine .inr ((hclimb'.length_branch_le hmJ).trans_lt ?_)
    rwa [length_reverse] at hend

/-! ## `ActivateBestChain` -/

/-- **The end of a reorganisation**: the tip is a target, or there is no candidate left. -/
structure Reached (connects : Uint256 → Bool) (I J : ChainIndex) : Prop where
  steps : Steps connects I J
  target : J.setBlockIndexCandidates = [] ∨ ∃ c, J.Target c ∧ J.IsChain c

/-- The loops end, from a state and with arguments of the loop. -/
def Ends (connects : Uint256 → Bool) (startingTip : Option Uint256) (blocksConnected : Bool)
    (pindexMostWork : Option Uint256) (I : ChainIndex) : Prop :=
  ∃ N J, Reached connects I J ∧ ∀ n ≥ N,
    activateLoop connects n startingTip blocksConnected pindexMostWork I = some J

/-- One more turn. -/
theorem Ends.of_turn {st st' : Option Uint256} {bc bc' : Bool} {mw mw' : Option Uint256}
    (hsteps : Steps connects I J) (h : Ends connects st' bc' mw' J)
    (hturn : ∀ n, activateLoop connects (n + 1) st bc mw I = activateLoop connects n st' bc' mw' J) :
    Ends connects st bc mw I := by
  obtain ⟨N, K, hreached, hrun⟩ := h
  refine ⟨N + 1, K, ⟨hsteps.trans hreached.steps, hreached.target⟩, fun n hn => ?_⟩
  obtain ⟨k, rfl⟩ : ∃ k, n = k + 1 := ⟨n - 1, by omega⟩
  rw [hturn]
  exact hrun k (by omega)

/-- The loops end here. -/
theorem Ends.here {st : Option Uint256} {bc : Bool} {mw : Option Uint256}
    (hreached : Reached connects I J)
    (hturn : ∀ n, activateLoop connects (n + 1) st bc mw I = some J) : Ends connects st bc mw I := by
  refine ⟨1, J, hreached, fun n hn => ?_⟩
  obtain ⟨k, rfl⟩ : ∃ k, n = k + 1 := ⟨n - 1, by omega⟩
  exact hturn k

/-- A target that is the tip already. -/
theorem Target.ends (htarget : I.Target c) (htip : I.IsChain c) (hm : I.IsTree)
    (st : Option Uint256) (bc : Bool) : Ends connects st bc (some c.hashBlock) I := by
  refine Ends.here ⟨.refl, .inr ⟨c, htarget, htip⟩⟩ fun n => ?_
  simp [activateLoop, htarget.entry, htip.getLast? hm]

/-- What a turn of the loops does after `ActivateBestChainStep`: another turn, or the end with
the cached block as the tip. -/
theorem activateLoop_turn {g : Uint256} {invalid : Bool}
    (hc : I.Has c.hashBlock c) (hlast : I.chainActive.getLast? = some g) (hne : g ≠ c.hashBlock)
    (hrun : I.activateBestChainStep connects c = some (J, invalid)) (st : Option Uint256)
    (bc : Bool) :
    (∃ st' bc', ∀ n, activateLoop connects (n + 1) st bc (some c.hashBlock) I =
      activateLoop connects n st' bc' (if invalid then none else some c.hashBlock) J) ∨
    (if invalid then none else some c.hashBlock) = J.chainActive.getLast? ∧
      ∀ n, activateLoop connects (n + 1) st bc (some c.hashBlock) I = some J := by
  have hnot : ¬ (I.chainActive.getLast? = some c.hashBlock) := by
    rw [hlast, some.injEq]
    exact hne
  by_cases hworse : (J.chainTip.all fun tip =>
      (st.bind J.mapBlockIndex.lookup).any (J.workLess tip)) = true
  · refine .inl ⟨st, true, fun n => ?_⟩
    simp [activateLoop, hc, hnot, hrun, hworse]
  · by_cases hend : (if invalid then none else some c.hashBlock) = J.chainActive.getLast?
    · refine .inr ⟨hend, fun n => ?_⟩
      simp only [activateLoop, hc, hnot, hrun, hworse, hend]
      rfl
    · refine .inl ⟨J.chainActive.getLast?, false, fun n => ?_⟩
      simp only [activateLoop, hc, hnot, hrun, hworse, hend]
      rfl

/-- **With a target the loops end**, if they do from every state with fewer unmarked blocks.
The induction is on the length of the branch to the target. -/
theorem Working.ends_of_target {k b : ℕ}
    (hfewer : ∀ J : ChainIndex, Working connects first Eligible r₀ J → J.unmarkedBlocks.card < k →
      ∀ st bc, Ends connects st bc none J)
    (h : Working connects first Eligible r₀ I) (htarget : I.Target c) (hcard : I.unmarkedBlocks.card ≤ k)
    (hlen : (I.branch c).length ≤ b) (st : Option Uint256) (bc : Bool) :
    Ends connects st bc (some c.hashBlock) I := by
  induction b using Nat.strong_induction_on generalizing I c st bc with
  | _ b ih =>
    obtain ⟨tip, htip, -⟩ := h.chain
    by_cases htop : tip.hashBlock = c.hashBlock
    · cases h.tree.eq_of_hashBlock htip.entry htarget.entry htop
      exact htarget.ends htip h.tree st bc
    · obtain ⟨J, invalid, hrun, hsteps, hinvalid, hvalid⟩ := h.activateBestChainStep htarget
      have hJ := h.steps hsteps
      obtain ⟨tip', htip', -⟩ := hJ.chain
      have hlast' := htip'.getLast? hJ.tree
      have hturn := activateLoop_turn htarget.entry (htip.getLast? h.tree) htop hrun st bc
      cases invalid with
      | true =>
        have hless := card_lt_card (hinvalid rfl)
        rcases hturn with ⟨st', bc', hturn⟩ | ⟨hend, -⟩
        · exact Ends.of_turn hsteps (hfewer J hJ (by omega) st' bc') hturn
        · rw [hlast'] at hend
          cases hend
      | false =>
        obtain ⟨c', hc', htarget', hcloser⟩ := hvalid rfl
        have hless := card_le_card (hsteps.unmarkedBlocks_subset h)
        rw [← hc'] at hturn ⊢
        rcases hturn with ⟨st', bc', hturn⟩ | ⟨hend, hturn⟩
        · refine Ends.of_turn hsteps ?_ hturn
          rcases hcloser with htip' | hshorter
          · exact htarget'.ends htip' hJ.tree st' bc'
          · exact ih _ (hshorter.trans_le hlen) hJ htarget' (by omega) le_rfl st' bc'
        · rw [hlast', if_neg (by decide), some.injEq] at hend
          cases hJ.tree.eq_of_hashBlock htarget'.entry htip'.entry hend
          exact Ends.here ⟨hsteps, .inr ⟨_, htarget', htip'⟩⟩ hturn

/-- Without a candidate there is one more turn at most. -/
theorem ends_of_empty (hsteps : Steps connects I J) (hempty : J.setBlockIndexCandidates = [])
    (hfind : I.findMostWorkChain = some (J, none)) (st : Option Uint256) (bc : Bool) :
    Ends connects st bc none I := by
  have hnone : J.findMostWorkChain = some (J, none) := by
    simp [findMostWorkChain, findMostWorkLoop, bestCandidate, hempty]
  refine ⟨2, J, ⟨hsteps, .inl hempty⟩, fun n hn => ?_⟩
  obtain ⟨k, rfl⟩ : ∃ k, n = k + 2 := ⟨n - 2, by omega⟩
  simp [activateLoop, hfind, hnone]

/-- **The loops of `ActivateBestChain` end.** The induction is on the number of unmarked
blocks. -/
theorem Working.ends (k : ℕ) (I : ChainIndex) (h : Working connects first Eligible r₀ I)
    (hcard : I.unmarkedBlocks.card < k) (st : Option Uint256) (bc : Bool) :
    Ends connects st bc none I := by
  induction k generalizing I st bc with
  | zero => exact absurd hcard (Nat.not_lt_zero _)
  | succ k ih =>
    obtain ⟨J, hsteps, ⟨hfind, hempty⟩ | ⟨c, hfind, htarget⟩⟩ :=
      h.findMostWorkLoop (Nat.lt_succ_self _)
    · exact ends_of_empty hsteps hempty hfind st bc
    have hless := card_le_card (hsteps.unmarkedBlocks_subset h)
    obtain ⟨N, K, hreached, hrun⟩ := (h.steps hsteps).ends_of_target ih htarget (by omega) le_rfl
      st bc
    refine ⟨N + 1, K, ⟨hsteps.trans hreached.steps, hreached.target⟩, fun n hn => ?_⟩
    obtain ⟨n, rfl⟩ : ∃ m, n = m + 1 := ⟨n - 1, by omega⟩
    rw [← hrun (n + 1) (by omega)]
    have hchain : I.findMostWorkChain = some (J, some c) := hfind
    simp [activateLoop, hchain, htarget.entry]

/-- **`ActivateBestChain` ends**, whatever `ConnectTip` finds. -/
theorem Working.activateBestChain (h : Working connects first Eligible r₀ I) :
    ∃ N J, Reached connects I J ∧ Working connects first Eligible r₀ J ∧
      ∀ turns ≥ N, I.activateBestChain connects turns = some J := by
  obtain ⟨N, J, hreached, hrun⟩ := Working.ends _ I h (Nat.lt_succ_self _)
    I.chainActive.getLast? false
  exact ⟨N, J, hreached, h.steps hreached.steps, hrun⟩

end ChainIndex

end Passion
