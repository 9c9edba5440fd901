import Passion.Chain.IndexChecks
import Passion.Chain.NewEntry

/-!
# A consistent block index

An invariant of the block index that implies what `CheckBlockIndex` asserts. It asks for more: the
active chain is usable and was validated, every block has more work than its parent, and an entry
that is not marked itself is a candidate if it is good enough, whatever its ancestors are. The last
makes it possible to take marks off again.
-/

namespace Passion

open List CBlockIndex
open BlockStatus hiding none

/-- An entry has an ancestor at every height below its own. -/
theorem BlockMap.IsTree.exists_getAncestor {m : BlockMap} {hash : Uint256} {p : CBlockIndex}
    (hm : m.IsTree) (hp : m.lookup hash = some p) {k : ℕ} (hk : (k : ℤ) ≤ p.nHeight) :
    ∃ a, p.getAncestor m k = some a ∧ a.nHeight = k := by
  have hlen := (hm.getElem?_reverse_ancestors hp).1
  have hlt : k < (p.ancestors m).reverse.length := by
    rw [length_reverse]
    omega
  have hget := getElem?_eq_getElem hlt
  have hheight := hm.nHeight_of_getElem?_reverse hp hget
  have hmem : (p.ancestors m).reverse[k] ∈ p.ancestors m :=
    mem_reverse.mp (getElem_mem hlt)
  have hnonneg := hm.nonneg (hm.lookup_ancestor hp hmem)
  cases hfind : p.getAncestor m k with
  | none =>
    have hnone := find?_eq_none.mp hfind _ hmem
    exact absurd (decide_eq_true (by omega)) hnone
  | some a =>
    have hsome := find?_some (by rwa [getAncestor] at hfind)
    exact ⟨a, rfl, of_decide_eq_true hsome⟩

theorem getSkipHeight_lt {n : ℕ} (hn : 0 < n) : getSkipHeight n < n := by
  have hinv : ∀ k, invertLowestOne k ≤ k - 1 := fun k => Nat.and_le_right
  have hself : ∀ k, invertLowestOne k ≤ k := fun k => Nat.and_le_left
  have h1 := hinv n
  have h2 := hinv (n - 1)
  have h3 := hself (invertLowestOne (n - 1))
  unfold getSkipHeight
  split
  · omega
  · split <;> omega

namespace ChainIndex

/-! ## The invariant -/

/-- What a steady index knows of an entry. -/
structure EntrySteady (genesis : Uint256) (I : ChainIndex) (hash : Uint256) (p : CBlockIndex) :
    Prop where
  root : p.pprev = none → hash = genesis
  /-- A block has more work than its parent. -/
  work : ∀ {g q}, p.pprev = some g → I.mapBlockIndex.lookup g = some q →
    q.nChainWork.toNat < p.nChainWork.toNat
  known : BLOCK_VALID_TREE ≤ p.nStatus.valid
  validated : BLOCK_VALID_CHAIN ≤ p.nStatus.valid → p.AllAtLeast I BLOCK_VALID_SCRIPTS
  failed : p.nStatus.failed = true → p.HasInvalid I

/-- What a steady index is, but for the totals and the candidates. -/
structure Framed (genesis : Uint256) (I : ChainIndex) : Prop where
  tree : I.mapBlockIndex.IsTree
  entry : ∀ {hash p}, I.mapBlockIndex.lookup hash = some p → EntrySteady genesis I hash p
  /-- The active chain may be active, and was validated. -/
  chain : ∃ tip, I.IsChain tip ∧ tip.Usable I ∧
    tip.AllAtLeast I BLOCK_VALID_SCRIPTS

/-- **A settled index**: the candidates are linked blocks that are good enough. -/
structure Settled (genesis : Uint256) (I : ChainIndex) : Prop extends Framed genesis I where
  sequence : ∀ {hash p}, I.mapBlockIndex.lookup hash = some p → p.nChainTx = 0 →
    p.nSequenceId = 0
  stored : ∀ {hash p}, I.mapBlockIndex.lookup hash = some p →
    (BLOCK_VALID_TRANSACTIONS ≤ p.nStatus.valid ↔ p.nStatus.haveData = true)
  candidates : ∀ {hash}, hash ∈ I.setBlockIndexCandidates →
    ∃ p, I.mapBlockIndex.lookup hash = some p ∧ p.nChainTx ≠ 0 ∧ I.NotWorse p

/-- **A steady index**: all of the invariant but that no candidate is missing. -/
structure Steady (genesis : Uint256) (I : ChainIndex) : Prop extends Settled genesis I where
  accounts : I.Accounted

/-- No candidate is missing. -/
def KeepsCandidates (I : ChainIndex) : Prop :=
  ∀ {hash p}, I.mapBlockIndex.lookup hash = some p → p.nChainTx ≠ 0 →
    p.nStatus.failed = false → I.NotWorse p → hash ∈ I.setBlockIndexCandidates

/-- **A consistent index.** -/
structure Consistent (genesis : Uint256) (I : ChainIndex) : Prop extends Steady genesis I where
  kept : I.KeepsCandidates

variable {I : ChainIndex}

/-- A block ranks above its ancestors. -/
theorem Framed.rank_le {genesis hash : Uint256} {p a : CBlockIndex} (h : I.Framed genesis)
    (hp : I.Has hash p) : a ∈ p.ancestors I → I.rank a ≤ I.rank p := by
  refine h.tree.induction ?_ ?_ hp
  · intro hash p hp hroot ha
    rw [h.tree.ancestors_root hp hroot, mem_singleton] at ha
    rw [ha]
  · intro hash p g q hp hprev hq ih ha
    rw [h.tree.ancestors_child hp hprev hq, mem_cons] at ha
    rcases ha with rfl | ha
    · exact le_refl _
    · refine (ih ha).trans (le_of_lt ?_)
      rw [rank, rank, Prod.Lex.toLex_lt_toLex]
      exact .inl ((h.entry hp).work hprev hq)

/-- **A consistent index passes `CheckBlockIndex`.** -/
theorem Consistent.checkBlockIndex {genesis : Uint256} (h : I.Consistent genesis) :
    I.CheckBlockIndex genesis := by
  have hm := h.tree
  obtain ⟨tip, htip, huse, -⟩ := h.chain
  refine ⟨fun hnil => ?_, hm, fun e he => ?_⟩
  · have hlast := htip.getLast? hm
    rw [hnil] at hlast
    cases hlast
  · obtain ⟨hash, p⟩ := e
    show I.EntryOk genesis p
    have hp : I.Has hash p := AList.mem_lookup_iff.mpr he
    have hkey := hm.key hp
    have hlinked := h.accounts.linked_iff hp
    have hcounted := (h.accounts.entry hp).counted
    have hclean : ¬ p.HasInvalid I → p.nStatus.failed = false := by
      intro hno
      rw [← Bool.not_eq_true]
      exact fun hfail => hno ((h.entry hp).failed hfail)
    refine { genesis := ?_, data := hcounted, transactions := ?_, sequence := h.sequence hp,
             missing := ?_, work := ?_, skip := ?_, tree := ?_, chain := ?_,
             scripts := ?_, failed := hclean, candidate := ?_, notCandidate := ?_,
             unlinked := ?_, notUnlinked := ?_ }
    · intro hroot
      refine ⟨hkey.trans ((h.entry hp).root hroot), ?_⟩
      -- The root of the active chain is the only one.
      obtain ⟨r, hr, hr0⟩ := hm.exists_root htip.entry
      have hlook := hm.lookup_ancestor htip.entry hr
      have hsame : r = p := by
        rw [(h.entry hlook).root hr0, ← (h.entry hp).root hroot, hp] at hlook
        exact (Option.some.inj hlook).symm
      subst hsame
      have hget := (hm.getElem?_reverse_ancestors htip.entry).2 r hr
      have hzero : r.nHeight.toNat = 0 := by rw [hm.root hp hroot]; rfl
      rw [hzero] at hget
      rw [htip.active, ← map_reverse, head?_map, head?_eq_getElem?, hget]
      rfl
    · exact (h.stored hp).trans (hcounted.trans Nat.pos_iff_ne_zero.symm)
    · rw [← hlinked, not_not]
    · cases hprev : p.pprev with
      | none => simp [CBlockIndex.prev, hprev]
      | some g =>
        obtain ⟨q, hq, -⟩ := hm.parent hp hprev
        have hless := (h.entry hp).work hprev hq
        have hsome : p.prev I = some q := by simp [CBlockIndex.prev, hprev, hq]
        rw [hsome]
        exact decide_eq_true (by omega)
    · rcases lt_or_ge p.nHeight 2 with hlow | hhigh
      · exact .inl hlow
      · refine .inr ?_
        cases hprev : p.pprev with
        | none =>
          have hzero := hm.root hp hprev
          omega
        | some g =>
          obtain ⟨q, hq, hheight⟩ := hm.parent hp hprev
          have hless := getSkipHeight_lt (n := p.nHeight.toNat) (by omega)
          obtain ⟨s, hs, hsh⟩ := hm.exists_getAncestor hq
            (k := getSkipHeight p.nHeight.toNat) (by omega)
          have hskip : p.pskip I = some s := by
            simp [pskip, CBlockIndex.prev, hprev, hq, hs]
          rw [hskip]
          exact decide_eq_true (by omega)
    · intro a ha _
      exact (h.entry (hm.lookup_ancestor hp ha)).known
    · intro hlevel a ha hroot
      have hscripts := (h.entry hp).validated hlevel a ha hroot
      unfold BLOCK_VALID_SCRIPTS at hscripts
      unfold BLOCK_VALID_CHAIN
      omega
    · intro hlevel
      refine (h.entry hp).validated ?_
      unfold BLOCK_VALID_SCRIPTS at hlevel
      unfold BLOCK_VALID_CHAIN
      omega
    · intro hbetter hcomplete hno
      rw [hkey]
      exact h.kept hp (hlinked.mpr hcomplete) (hclean hno) hbetter
    · intro hno hin
      rw [hkey] at hin
      obtain ⟨q, hq, hlinks, hbetter⟩ := h.candidates hin
      cases hp.symm.trans hq
      exact hno ⟨hbetter, hlinked.mp hlinks⟩
    · intro hdata hmissing _
      cases hprev : p.pprev with
      | none => rfl
      | some g =>
        rw [hkey]
        exact decide_eq_true ((h.accounts.mem_mapBlocksUnlinked_iff hp).mpr
          ⟨hprev, hdata, hmissing⟩)
    · intro hno
      cases hprev : p.pprev with
      | none => rfl
      | some g =>
        rw [hkey]
        refine decide_eq_true fun hin => hno ?_
        exact ((h.accounts.mem_mapBlocksUnlinked_iff hp).mp hin).2

end ChainIndex

/-! ## Changes of the status -/

variable {I J : ChainIndex} {f : CBlockIndex → CBlockIndex} {k : Uint256} {p tip : CBlockIndex}

namespace InPlace

theorem allAtLeast (h : InPlace I J f) (hm : I.IsTree) (hp : I.Has k p)
    (hlevel : ∀ a, a.nStatus.valid ≤ (f a).nStatus.valid) {level : ℕ}
    (hall : p.AllAtLeast I level) : (f p).AllAtLeast J level := by
  rw [AllAtLeast, h.ancestors hm hp, forall_mem_map]
  intro a ha hroot
  rw [h.pprev] at hroot
  exact (hall a ha hroot).trans (hlevel a)

theorem hasInvalid (h : InPlace I J f) (hm : I.IsTree) (hp : I.Has k p)
    (hkeeps : ∀ a, a.nStatus.failedValid = true → (f a).nStatus.failedValid = true)
    (hbad : p.HasInvalid I) : (f p).HasInvalid J := by
  obtain ⟨a, ha, hfail⟩ := hbad
  exact ⟨f a, (h.mem_ancestors_iff hm hp (hm.lookup_ancestor hp ha)).mpr ha, hkeeps a hfail⟩

end InPlace

namespace Change

theorem related_sameTotals (h : Change I J f) : I.mapBlockIndex.Related SameTotals J := by
  refine (BlockMap.related_of_map h.map).mono ?_
  rintro p _ rfl
  have hp := h.remarked p
  rw [hp.same]
  exact ⟨⟨rfl, rfl, rfl, hp.haveData, rfl, rfl, rfl⟩, rfl, rfl⟩

/-- With the same active chain the entries compare to the tip as before. -/
theorem notWorse_iff (h : Change I J f) (hm : I.IsTree) (htip : I.IsChain tip)
    (hactive : J.chainActive = I.chainActive) : J.NotWorse (f p) ↔ I.NotWorse p := by
  rw [ChainIndex.notWorse_iff (h.isChain hm htip hactive) (h.isTree hm),
    ChainIndex.notWorse_iff htip hm, h.rank, h.rank]

end Change

namespace ChainIndex

variable {genesis : Uint256} {connects : Uint256 → Bool}

/-- **What keeps the frame of rewritten entries**: levels only rise, for chains that were
validated up to there, what is marked has an invalid ancestor, and the active chain is usable. -/
structure Reframes (I J : ChainIndex) (f : CBlockIndex → CBlockIndex) : Prop where
  level : ∀ p, p.nStatus.valid ≤ (f p).nStatus.valid
  validated : ∀ {hash p}, I.mapBlockIndex.lookup hash = some p →
    BLOCK_VALID_CHAIN ≤ (f p).nStatus.valid → (f p).AllAtLeast J BLOCK_VALID_SCRIPTS
  failed : ∀ {hash p}, I.mapBlockIndex.lookup hash = some p →
    (f p).nStatus.failed = true → (f p).HasInvalid J
  chain : ∃ tip, J.IsChain tip ∧ tip.Usable J ∧
    tip.AllAtLeast J BLOCK_VALID_SCRIPTS

theorem Framed.of_inPlace (h : I.Framed genesis) (hc : InPlace I J f) (hf : Reframes I J f)
    (hwork : ∀ p, (f p).nChainWork = p.nChainWork) : J.Framed genesis where
  tree := hc.isTree h.tree
  chain := hf.chain
  entry := by
    intro hash p' hp'
    obtain ⟨p, hp, rfl⟩ := hc.exists_lookup hp'
    have hentry := h.entry hp
    refine ⟨fun hroot => ?_, fun {g q'} hprev hq' => ?_, hentry.known.trans (hf.level p),
      hf.validated hp, hf.failed hp⟩
    · rw [hc.pprev] at hroot
      exact hentry.root hroot
    · obtain ⟨q, hq, rfl⟩ := hc.exists_lookup hq'
      rw [hc.pprev] at hprev
      rw [hwork, hwork]
      exact hentry.work hprev hq

/-- **A change of the status keeps an index steady** if it keeps the frame, raises no level to
that of stored data, and no candidate is worse than the tip. -/
theorem Steady.of_change (h : I.Steady genesis) (hc : Change I J f)
    (hunlinked : J.mapBlocksUnlinked = I.mapBlocksUnlinked) (hf : Reframes I J f)
    (hstored : ∀ {hash p}, I.Has hash p →
      BLOCK_VALID_TRANSACTIONS ≤ (f p).nStatus.valid → BLOCK_VALID_TRANSACTIONS ≤ p.nStatus.valid)
    (hcand : ∀ {hash}, hash ∈ J.setBlockIndexCandidates → ∃ p,
      I.Has hash p ∧ p.nChainTx ≠ 0 ∧ J.NotWorse (f p)) : J.Steady genesis where
  toFramed := h.toFramed.of_inPlace hc.toInPlace hf fun p => (hc.remarked p).nChainWork
  accounts := by
    rw [Accounted, hunlinked]
    exact h.accounts.of_related hc.related_sameTotals
  sequence := by
    intro hash p' hp' hzero
    obtain ⟨p, hp, rfl⟩ := hc.exists_lookup hp'
    rw [(hc.remarked p).nChainTx] at hzero
    rw [(hc.remarked p).nSequenceId]
    exact h.sequence hp hzero
  stored := by
    intro hash p' hp'
    obtain ⟨p, hp, rfl⟩ := hc.exists_lookup hp'
    rw [(hc.remarked p).haveData, ← h.stored hp]
    exact ⟨hstored hp, fun hle => hle.trans (hf.level p)⟩
  candidates := by
    intro hash hin
    obtain ⟨p, hp, hlinked, hbetter⟩ := hcand hin
    exact ⟨f p, hc.lookup hp, by rwa [(hc.remarked p).nChainTx], hbetter⟩

/-- The case of a change that leaves the levels and the active chain alone. -/
theorem Steady.of_marks (h : I.Steady genesis) (hc : Change I J f)
    (hunlinked : J.mapBlocksUnlinked = I.mapBlocksUnlinked)
    (hactive : J.chainActive = I.chainActive) (hlevel : ∀ p, (f p).nStatus.valid = p.nStatus.valid)
    (hfailed : ∀ {hash p}, I.Has hash p →
      (f p).nStatus.failed = true → (f p).HasInvalid J)
    (hclean : ∀ {tip}, I.IsChain tip → tip.Usable I →
      ∀ a ∈ tip.ancestors I, (f a).nStatus.failed = false)
    (hsub : ∀ {hash}, hash ∈ J.setBlockIndexCandidates → hash ∈ I.setBlockIndexCandidates ∨
      ∃ p, I.Has hash p ∧ p.nChainTx ≠ 0 ∧ I.NotWorse p) : J.Steady genesis := by
  have hm := h.tree
  obtain ⟨tip, htip, huse, hscripts⟩ := h.chain
  have hrise : ∀ p, p.nStatus.valid ≤ (f p).nStatus.valid := fun p => (hlevel p).ge
  refine h.of_change hc hunlinked ⟨hrise, fun hp hle => ?_, hfailed, f tip,
    hc.isChain hm htip hactive, hc.usable hm htip.entry huse (hclean htip huse),
    hc.allAtLeast hm htip.entry hrise hscripts⟩ (fun _ hle => ?_) (fun hin => ?_)
  · rw [hlevel] at hle
    exact hc.allAtLeast hm hp hrise ((h.entry hp).validated hle)
  · rwa [hlevel] at hle
  · obtain ⟨p, hp, hlinked, hbetter⟩ := (hsub hin).elim h.candidates id
    exact ⟨p, hp, hlinked, (hc.notWorse_iff hm htip hactive).mpr hbetter⟩

/-- **Marking a block as invalid keeps an index steady** if it is not on the active chain. -/
theorem Steady.of_failedValid {hash : Uint256} (h : I.Steady genesis)
    (hc : Change I J (changeAt hash markFailedValid))
    (hunlinked : J.mapBlocksUnlinked = I.mapBlocksUnlinked)
    (hactive : J.chainActive = I.chainActive) (hout : ∀ {tip}, I.IsChain tip → tip.Usable I →
      ∀ a ∈ tip.ancestors I, a.hashBlock ≠ hash)
    (hsub : J.setBlockIndexCandidates ⊆ I.setBlockIndexCandidates) : J.Steady genesis := by
  have hm := h.tree
  refine h.of_marks hc hunlinked hactive
    (apply_changeAt (g := fun a => a.nStatus.valid) (f := markFailedValid) (fun _ => rfl) hash)
    (fun {k a} ha hfail => ?_) (fun {tip} htip huse a ha => ?_) (fun hin => .inl (hsub hin))
  · by_cases heq : a.hashBlock = hash
    · refine ⟨changeAt hash markFailedValid a, (hc.isTree hm).self_mem_ancestors (hc.lookup ha), ?_⟩
      rw [changeAt, if_pos heq]
      rfl
    · rw [changeAt_of_ne heq] at hfail
      refine hc.hasInvalid hm ha (fun b hb => ?_) ((h.entry ha).failed hfail)
      unfold changeAt
      split
      · rfl
      · exact hb
  · rw [changeAt_of_ne (hout htip huse a ha)]
    exact huse.unmarked a ha

/-! ## Reorganisations -/

theorem valid_le_connected (p : CBlockIndex) : p.nStatus.valid ≤ p.connected.nStatus.valid := by
  rw [connected, raise_eq]
  split
  · exact le_refl _
  · dsimp only
    split
    · exact le_refl _
    · exact le_max_left _ _

theorem scripts_le_connected {p : CBlockIndex} (hroot : p.pprev ≠ none)
    (hgood : p.nStatus.failed = false) : BLOCK_VALID_SCRIPTS ≤ p.connected.nStatus.valid := by
  have hnone : p.pprev.isNone = false := by
    cases hprev : p.pprev with
    | none => exact absurd hprev hroot
    | some g => rfl
  have hgood' : failed { p.nStatus with haveUndo := true } = false := hgood
  rw [connected, hnone, if_neg Bool.false_ne_true, raise_eq, hgood', if_neg Bool.false_ne_true]
  exact le_max_right _ _

theorem connected_failedValid (p : CBlockIndex) :
    p.connected.nStatus.failedValid = p.nStatus.failedValid := by
  rw [connected, raise_eq]
  split <;> rfl

/-- The candidates above a failed block are dropped. -/
theorem Steady.drop (h : I.Steady genesis) {t : CBlockIndex} {above : List CBlockIndex}
    (ht : I.Has t.hashBlock t) (hfailed : t.nStatus.failed = true)
    (habove : ∀ p ∈ above, I.Has p.hashBlock p ∧ t ∈ p.ancestors I ∧ p.Complete I) :
    (I.dropAbove t above).Steady genesis := by
  have hm := h.tree
  have hc := marking_dropAbove hm t above
  refine h.of_marks hc.toChange rfl rfl (fun p => ?_) (fun {hash p} hp hfail => ?_)
    (fun {tip} htip huse a ha => ?_) (fun hin => .inl (mem_filter.mp hin).1)
  · unfold markAbove
    split <;> rfl
  · refine hc.hasInvalid hm hp (fun a ha => ?_) ?_
    · unfold markAbove
      split <;> exact ha
    · by_cases hmem : p.hashBlock ∈ above.map (·.hashBlock)
      · -- The failed block is an ancestor, and has an invalid one itself.
        obtain ⟨b, hb, heq⟩ := mem_map.mp hmem
        obtain ⟨hlook, hin, -⟩ := habove b hb
        cases hm.eq_of_hashBlock hlook hp heq
        obtain ⟨a, ha, hbad⟩ := (h.entry ht).failed hfailed
        exact ⟨a, hm.ancestors_subset hp hin ha, hbad⟩
      · rw [markAbove, if_neg hmem] at hfail
        exact (h.entry hp).failed hfail
  · rw [markAbove_of_unmarked hm hfailed habove htip.entry huse.unmarked ha]
    exact huse.unmarked a ha

/-- The active chain is cut, and every candidate is better than its new tip. -/
theorem Steady.cut (h : I.Steady genesis) {tip fork : CBlockIndex} (htip : I.IsChain tip)
    (hfork : fork ∈ tip.ancestors I) : (I.disconnectTo fork).Steady genesis := by
  have hm := h.tree
  obtain ⟨tip₀, htip₀, huse₀, hscripts₀⟩ := h.chain
  cases htip₀.unique htip hm
  have hcut := htip.disconnectTo hm hfork
  refine h.of_change (Change.of_same_map rfl rfl) rfl
    ⟨fun _ => le_refl _, fun hp => (h.entry hp).validated, fun hp => (h.entry hp).failed, fork,
      hcut, huse₀.of_mem_ancestors hm htip.entry hfork,
      fun a ha => hscripts₀ a (hm.ancestors_subset htip.entry hfork ha)⟩
    (fun _ hle => hle) (fun hin => ?_)
  obtain ⟨p, hp, hlinked, hbetter⟩ := h.candidates hin
  have hfirst := (notWorse_iff htip hm).mp hbetter
  exact ⟨p, hp, hlinked, (notWorse_iff hcut hm).mpr ((h.rank_le htip.entry hfork).trans hfirst)⟩

/-- A block is connected: its chain was validated with it. -/
theorem Steady.connect (h : I.Steady genesis) {tip x : CBlockIndex} (hnext : I.Next tip x)
    (hprune : (I.extend x).pruneBlockIndexCandidates = some J) : J.Steady genesis := by
  have hm := h.tree
  have hx := hnext.entry
  have huse := hnext.usable
  obtain ⟨tip₀, htip₀, -, hscripts₀⟩ := h.chain
  cases htip₀.unique hnext.chain hm
  have hJ := hnext.connected hm hprune
  have hrise : ∀ p : CBlockIndex,
      p.nStatus.valid ≤ (changeAt x.hashBlock connected p).nStatus.valid := by
    intro p
    unfold changeAt
    split
    · exact valid_le_connected p
    · exact le_refl _
  have hscripts : (changeAt x.hashBlock connected x).AllAtLeast J BLOCK_VALID_SCRIPTS := by
    rw [AllAtLeast, hJ.ancestors hm hx, hm.ancestors_child hx hnext.pprev htip₀.entry, map_cons,
      forall_mem_cons, changeAt_self, forall_mem_map]
    refine ⟨fun _ => ?_, fun a ha hroot => ?_⟩
    · exact scripts_le_connected (by rw [hnext.pprev]; exact Option.some_ne_none _)
        (huse.unmarked x (hm.self_mem_ancestors hx))
    · rw [hJ.pprev] at hroot
      exact (hscripts₀ a ha hroot).trans (hrise a)
  refine h.of_change hJ.toChange hJ.unlinked ⟨hrise, fun {hash p} hp hle => ?_,
    fun {hash p} hp hfail => ?_, _, hJ.chain, ?_, hscripts⟩ (fun {hash p} hp hle => ?_)
    (fun {hash} hin => ?_)
  · by_cases heq : p.hashBlock = x.hashBlock
    · cases hm.eq_of_hashBlock hp hx heq
      exact hscripts
    · rw [changeAt_of_ne heq] at hle
      exact hJ.allAtLeast hm hp hrise ((h.entry hp).validated hle)
  · rw [changeAt_connected_failed] at hfail
    refine hJ.hasInvalid hm hp (fun a ha => ?_) ((h.entry hp).failed hfail)
    rwa [apply_changeAt (g := fun a => a.nStatus.failedValid) connected_failedValid]
  · refine hJ.usable hm hx huse fun a ha => ?_
    rw [changeAt_connected_failed]
    exact huse.unmarked a ha
  · by_cases heq : p.hashBlock = x.hashBlock
    · -- The block has its data.
      cases hm.eq_of_hashBlock hp hx heq
      exact (h.stored hx).mpr (huse.complete _ (hm.self_mem_ancestors hx))
    · rwa [changeAt_of_ne heq] at hle
  · obtain ⟨p, hp, hlinked, -⟩ := h.candidates (hJ.subset hin)
    refine ⟨p, hp, hlinked, ?_⟩
    rw [notWorse_iff hJ.chain (hJ.isTree hm), hJ.rank, hJ.rank]
    exact ((hJ.mem_iff hp).mp hin).2

/-- **Every step of a reorganisation keeps an index steady.** -/
theorem Steady.step (h : I.Steady genesis) (hstep : Step connects I J) : J.Steady genesis := by
  have hm := h.tree
  cases hstep with
  | note b =>
    exact h.of_marks (Change.of_same_map rfl rfl) rfl rfl (fun _ => rfl)
      (fun hp => (h.entry hp).failed) (fun _ huse => huse.unmarked) (.inl)
  | drop ht hfailed habove => exact h.drop ht hfailed habove
  | cut htip hfork => exact h.cut htip hfork
  | connect hnext _ hprune => exact h.connect hnext hprune
  | @fail tip x hnext hconn =>
    have htip := hnext.chain
    have hx := hnext.entry
    refine h.of_failedValid (marking_fail hm x).toChange rfl rfl
      (fun {tip'} htip' _ a ha heq => ?_) (filter_subset_self _)
    -- The block is a child of the tip, and not on the active chain.
    cases htip.unique htip' hm
    rw [hm.eq_of_hashBlock (hm.lookup_ancestor htip.entry ha) hx heq] at ha
    exact hm.not_mem_ancestors_parent hx hnext.pprev htip.entry ha

theorem Steady.steps (h : I.Steady genesis) (hsteps : Steps connects I J) : J.Steady genesis := by
  induction hsteps with
  | refl => exact h
  | tail _ hstep ih => exact ih.step hstep

/-- A consistent index is ready for a reorganisation. -/
theorem Consistent.working (connects : Uint256 → Bool) (h : I.Consistent genesis)
    {tip : CBlockIndex} (htip : I.IsChain tip) (huse : tip.Usable I) (hlinked : tip.nChainTx ≠ 0) :
    Working connects I.chainActive (fun _ => True) (I.rank tip) I where
  tree := h.tree
  counted := fun hp hcomplete => (h.accounts.linked_iff hp).mpr hcomplete
  root := fun hp hroot hq hroot' => ((h.entry hp).root hroot).trans ((h.entry hq).root hroot').symm
  chain := ⟨tip, htip, htip.connectable h.tree huse⟩
  candidates := by
    intro hash hin
    obtain ⟨p, hp, hlinked, hbetter⟩ := h.toSteady.candidates hin
    exact ⟨p, hp, (h.accounts.linked_iff hp).mp hlinked, (notWorse_iff htip h.tree).mp hbetter⟩
  eligible := fun _ _ => trivial
  kept := fun hp _ hcomplete hgood hrank =>
    .inl (h.kept hp ((h.accounts.linked_iff hp).mpr hcomplete) hgood
      ((notWorse_iff htip h.tree).mpr hrank))
  alive := .inr ⟨tip.hashBlock, tip, h.kept htip.entry hlinked
    (huse.unmarked tip (h.tree.self_mem_ancestors htip.entry))
    ((notWorse_iff htip h.tree).mpr le_rfl), htip.entry, htip.connectable h.tree huse⟩

/-- **`ActivateBestChain` keeps an index consistent**, if the active chain is not given up. -/
theorem Consistent.activateBestChain (h : I.Consistent genesis) {turns : ℕ}
    (hkeep : I.KeepsChain connects turns) (hrun : I.activateBestChain connects turns = some J) :
    J.Consistent genesis ∧ Steps connects I J := by
  obtain ⟨tip, htip, huse, -⟩ := h.chain
  have hwork := h.working connects htip huse ((h.accounts.linked_iff htip.entry).mpr huse.complete)
  obtain ⟨hreached, hK⟩ := hwork.of_run hrun
  have hsteady := h.toSteady.steps hreached.steps
  refine ⟨{ toSteady := hsteady, kept := fun {hash p} hp hlinked hgood hbetter => ?_ },
    hreached.steps⟩
  have hcomplete := (hsteady.accounts.linked_iff hp).mp hlinked
  obtain ⟨c, htarget, hchain⟩ := hreached.exists_target hK (hkeep.not_firstMarked hrun)
  have hrank := (notWorse_iff hchain hK.tree).mp hbetter
  -- The target is a candidate, and does not beat the block.
  exact (hK.kept hp trivial hcomplete hgood ((hK.le_target htarget).trans hrank)).resolve_right
    fun hall => (hall htarget.candidate htarget.entry).not_ge hrank

end ChainIndex

end Passion
