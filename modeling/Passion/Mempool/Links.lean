import Passion.Common.Dag
import Passion.Common.MachineNumber
import Passion.Mempool.SpendIndex

/-!
# The links of the pool as a graph

`mapLinks` holds for every entry its parents and its children in the pool. Where the two agree they
show a graph, whose nodes are the entries. The ancestors and descendants that the pool computes are
those of the graph.
-/

namespace Passion

open List Except Traversal Finset

variable {D : Type}

namespace TxMemPool

variable (p q : TxMemPool D)

/-- The links of an entry, empty where it has none. -/
def linksOf (it : Uint256) : PoolLinks := (p.mapLinks.lookup it).getD .empty

/-- The children of an entry. -/
abbrev childrenOf (it : Uint256) : Finset Uint256 := (p.linksOf it).children

/-- The parents of an entry. -/
abbrev parentsOf (it : Uint256) : Finset Uint256 := (p.linksOf it).parents

/-- **The links show a graph.** -/
structure Shows (G : Dag Uint256) : Prop where
  nodes : ∀ it, it ∈ p.mapTx ↔ it ∈ G.nodes
  keys : ∀ it, it ∈ p.mapLinks ↔ it ∈ G.nodes
  children : ∀ a, p.childrenOf a = G.children a
  parents : ∀ a b, a ∈ p.parentsOf b ↔ b ∈ G.children a

variable {p q} {G : Dag Uint256}

theorem ids_eq (h : ∀ it, it ∈ p.mapTx ↔ it ∈ G.nodes) : p.ids = G.nodes := by
  ext it
  rw [ids, mem_toFinset, ← AList.mem_keys, h]

theorem card_ids (p : TxMemPool D) : p.ids.card = p.mapTx.keys.length :=
  toFinset_card_of_nodup p.mapTx.nodupKeys

variable {it : Uint256}

theorem exists_entry (h : it ∈ p.mapTx) : ∃ e, p.entry it = .ok e := by
  obtain ⟨e, he⟩ := Option.isSome_iff_exists.mp (AList.lookup_isSome.mpr h)
  exact ⟨e, by rw [entry, he]⟩

theorem links_eq (h : it ∈ p.mapLinks) : p.links it = .ok (p.linksOf it) := by
  obtain ⟨l, hl⟩ := Option.isSome_iff_exists.mp (AList.lookup_isSome.mpr h)
  simp [links, linksOf, hl]

theorem of_links {l : PoolLinks} (h : p.links it = .ok l) : l = p.linksOf it := by
  unfold links at h
  split at h
  · cases h
  · next l hl =>
    cases h
    simp [linksOf, hl]

theorem getMemPoolChildren_eq (h : it ∈ p.mapLinks) :
    p.getMemPoolChildren it = .ok (p.childrenOf it) := by
  rw [getMemPoolChildren, links_eq h]
  rfl

theorem getMemPoolParents_eq (h : it ∈ p.mapLinks) :
    p.getMemPoolParents it = .ok (p.parentsOf it) := by
  rw [getMemPoolParents, links_eq h]
  rfl

variable {s : Finset Uint256}

theorem of_getMemPoolChildren (h : p.getMemPoolChildren it = .ok s) : s = p.childrenOf it := by
  obtain ⟨l, hl, rfl⟩ := map_eq_ok.mp h
  rw [of_links hl]

theorem of_getMemPoolParents (h : p.getMemPoolParents it = .ok s) : s = p.parentsOf it := by
  obtain ⟨l, hl, rfl⟩ := map_eq_ok.mp h
  rw [of_links hl]

/-! ## Ancestors and descendants -/

/-- **`CalculateDescendants` finds what is below an entry**, where what was found before has all
that is below it. -/
theorem exists_calculateDescendants (h : p.Shows G) (hit : it ∈ G.nodes) {seen : Finset Uint256}
    (hclosed : ∀ a ∈ seen, G.children a ⊆ seen) :
    ∃ t, p.calculateDescendants seen it = .ok t ∧
      ∀ x, x ∈ t ↔ x ∈ seen ∨ Reaches G.children it x := by
  have hnext : ∀ k ∈ G.nodes, p.getMemPoolChildren k = .ok (G.children k) := fun k hk => by
    rw [getMemPoolChildren_eq ((h.keys k).mpr hk), h.children]
  have hcard : (G.nodes \ seen).card ≤ p.mapTx.keys.length := by
    rw [← card_ids, ids_eq h.nodes]
    exact card_le_card sdiff_subset
  have hstage : (if it ∈ seen then ∅ else {it}) ⊆ G.nodes := by
    split
    · exact empty_subset _
    · exact singleton_subset_iff.mpr hit
  have hnew : Disjoint (if it ∈ seen then ∅ else {it}) seen := by
    split
    · exact disjoint_empty_left _
    · next hnot => exact disjoint_singleton_left.mpr hnot
  obtain ⟨t, ht, hmem⟩ := exists_drain_visitNew hnext
    (fun k _ c hc => (G.mem hc).2) hstage hclosed hnew hcard
  refine ⟨t, ht, fun x => (hmem x).trans ?_⟩
  split
  · next hin =>
    refine ⟨fun hx => .inl (hx.resolve_right fun ⟨k, hk, _⟩ => absurd hk (by simp)), ?_⟩
    rintro (hx | hx)
    · exact .inl hx
    · exact .inl (hx.mem_of_closed hclosed hin)
  · simp

/-- The loop over several entries finds what is below any of them. -/
theorem exists_withDescendants (h : p.Shows G) (hs : s ⊆ G.nodes) :
    ∃ t, p.withDescendants s = .ok t ∧ ∀ x, x ∈ t ↔ ∃ r ∈ s, Reaches G.children r x := by
  suffices ∀ (l : List Uint256) seen, (∀ r ∈ l, r ∈ G.nodes) →
      (∀ a ∈ seen, G.children a ⊆ seen) → ∃ t, l.foldlM p.calculateDescendants seen = .ok t ∧
        ∀ x, x ∈ t ↔ x ∈ seen ∨ ∃ r ∈ l, Reaches G.children r x by
    obtain ⟨t, ht, hmem⟩ := this (inOrder s) ∅ (fun r hr => hs (mem_inOrder.mp hr)) (by simp)
    exact ⟨t, ht, fun x => by rw [hmem]; simp⟩
  intro l
  induction l with
  | nil => exact fun seen _ _ => ⟨seen, rfl, fun x => by simp⟩
  | cons a l ih =>
    intro seen hl hclosed
    obtain ⟨t, ht, hmem⟩ := exists_calculateDescendants h (hl a mem_cons_self) hclosed
    have hclosed' : ∀ x ∈ t, G.children x ⊆ t := by
      intro x hx y hy
      rcases (hmem x).mp hx with hx | hx
      · exact (hmem y).mpr (.inl (hclosed x hx hy))
      · exact (hmem y).mpr (.inr (hx.tail hy))
    obtain ⟨u, hu, hmem'⟩ := ih t (fun r hr => hl r (mem_cons_of_mem a hr)) hclosed'
    refine ⟨u, ?_, fun x => ?_⟩
    · rw [foldlM_cons, ht]
      exact hu
    · rw [hmem', hmem, exists_mem_cons_iff, or_assoc]

@[simp] theorem exceeds_none (n : ℤ) : exceeds n none = false := rfl

/-- Without limits the loop of `CalculateMemPoolAncestors` is a traversal of the parents. -/
theorem climbAncestors_noLimit {U : Finset Uint256} (hentry : ∀ k ∈ U, k ∈ p.mapTx)
    (hkeys : ∀ k ∈ U, k ∈ p.mapLinks) (hparents : ∀ k ∈ U, p.parentsOf k ⊆ U) (nTxSize : ℤ)
    (n : ℕ) {stage found : Finset Uint256} (hstage : stage ⊆ U) (total : ℤ) :
    p.climbAncestors .noLimit nTxSize n stage found total =
      drain (visitNew p.getMemPoolParents)
        (.error "CalculateMemPoolAncestors does not return") n stage found := by
  induction n generalizing stage found total with
  | zero => rfl
  | succ n ih =>
    rw [climbAncestors, drain]
    split
    · next hne =>
      have hk : stage.min' hne ∈ U := hstage (stage.min'_mem hne)
      obtain ⟨e, he⟩ := exists_entry (hentry _ hk)
      have hnone : PackageLimits.noLimit.ancestorCount = none := rfl
      simp only [he, hnone, exceeds_none, getMemPoolParents_eq (hkeys _ hk), visitNew,
        Bool.and_false]
      refine ih (union_subset ((erase_subset _ _).trans hstage) ?_) _
      exact sdiff_subset.trans (hparents _ hk)
    · rfl

section Climb

variable (hentry : ∀ it, it ∈ p.mapTx ↔ it ∈ G.nodes)
variable (hkeys : ∀ it, it ∈ p.mapLinks ↔ it ∈ G.nodes)
variable (hparents : ∀ a b, a ∈ p.parentsOf b ↔ b ∈ G.children a)

include hentry hkeys hparents

/-- What the parents of an entry lead to is what is above it, without itself. -/
theorem exists_climb {P : Finset Uint256} (hP : P ⊆ G.nodes) (nTxSize total : ℤ) :
    ∃ t, p.climbAncestors .noLimit nTxSize p.mapTx.keys.length P ∅ total = .ok t ∧
      ∀ x, x ∈ t ↔ ∃ k ∈ P, Reaches G.children x k := by
  have hnext : ∀ k ∈ G.nodes, p.getMemPoolParents k = .ok (p.parentsOf k) := fun k hk =>
    getMemPoolParents_eq ((hkeys k).mpr hk)
  have hlinks : ∀ k ∈ G.nodes, p.parentsOf k ⊆ G.nodes := fun k _ a ha =>
    (G.mem ((hparents a k).mp ha)).1
  have hcard : (G.nodes \ ∅).card ≤ p.mapTx.keys.length := by
    rw [← card_ids, ids_eq hentry, sdiff_empty]
  obtain ⟨t, ht, hmem⟩ := exists_drain_visitNew hnext hlinks hP (by simp)
    (disjoint_empty_right P) hcard
  refine ⟨t, ?_, fun x => ?_⟩
  · rw [climbAncestors_noLimit (fun k hk => (hentry k).mpr hk) (fun k hk => (hkeys k).mpr hk)
      hlinks nTxSize _ hP]
    exact ht
  · rw [hmem]
    simp only [notMem_empty, false_or]
    exact exists_congr fun k => and_congr_right fun _ => reaches_swap fun a b => (hparents a b).symm

/-- **The ancestors of an entry** are what is above it. -/
theorem ancestorsOf_eq {it : Uint256} (hit : it ∈ G.nodes) :
    p.ancestorsOf it = .ok ((G.above it).erase it) := by
  obtain ⟨e, he⟩ := exists_entry ((hentry it).mpr hit)
  obtain ⟨t, ht, hmem⟩ := exists_climb hentry hkeys hparents
    (fun a ha => (G.mem ((hparents a it).mp ha)).1) e.nTxSize e.nTxSize
  have habove : t = (G.above it).erase it := by
    ext x
    rw [hmem, Dag.mem_above_erase]
    simp [hparents]
  rw [ancestorsOf, he, ok_bind, getMemPoolParents_eq ((hkeys it).mpr hit), ok_bind, ht, habove]

end Climb

/-! ## Changes of the links -/

theorem linksOf_congr (h : q.mapLinks = p.mapLinks) (x : Uint256) : q.linksOf x = p.linksOf x := by
  rw [linksOf, h, linksOf]

section ModifyLinks

variable (p it s) (f : PoolLinks → PoolLinks) (x : Uint256)

theorem linksOf_modifyLinks :
    (p.modifyLinks it f).linksOf x = if x = it then f (p.linksOf it) else p.linksOf x := by
  by_cases hx : x = it
  · subst hx
    simp [linksOf, modifyLinks]
  · simp [linksOf, modifyLinks, hx]

theorem mem_modifyLinks : x ∈ (p.modifyLinks it f).mapLinks ↔ x = it ∨ x ∈ p.mapLinks :=
  AList.mem_insert _

theorem modifyAllLinks_frame : OnlyPackages p (p.modifyAllLinks s f) :=
  OnlyPackages.foldl (fun p it => p.modifyLinks_frame it f) _ p

theorem modifyAllLinks_mapTx : (p.modifyAllLinks s f).mapTx = p.mapTx :=
  foldlRecOn (motive := fun q : TxMemPool D => q.mapTx = p.mapTx) _ _ rfl fun _ h _ _ => h

theorem linksOf_modifyAllLinks :
    (p.modifyAllLinks s f).linksOf x = if x ∈ s then f (p.linksOf x) else p.linksOf x := by
  have hloop : ∀ l : List Uint256, l.Nodup → ∀ p : TxMemPool D,
      (l.foldl (fun p it => p.modifyLinks it f) p).linksOf x =
        if x ∈ l then f (p.linksOf x) else p.linksOf x := by
    intro l hl
    induction l with
    | nil => simp
    | cons a l ih =>
      intro p
      obtain ⟨ha, hl⟩ := nodup_cons.mp hl
      rw [foldl_cons, ih hl, linksOf_modifyLinks]
      by_cases hxa : x = a
      · subst hxa
        simp [ha]
      · simp [hxa]
  simpa [modifyAllLinks] using hloop _ (nodup_inOrder s) p

theorem mem_modifyAllLinks : x ∈ (p.modifyAllLinks s f).mapLinks ↔ x ∈ s ∨ x ∈ p.mapLinks := by
  have hloop : ∀ (l : List Uint256) (p : TxMemPool D),
      x ∈ (l.foldl (fun p it => p.modifyLinks it f) p).mapLinks ↔ x ∈ l ∨ x ∈ p.mapLinks := by
    intro l
    induction l with
    | nil => simp
    | cons a l ih =>
      intro p
      rw [foldl_cons, ih, mem_modifyLinks, List.mem_cons, or_left_comm, or_assoc]
  simpa [modifyAllLinks] using hloop (inOrder s) p

end ModifyLinks

theorem modify_mapLinks (p : TxMemPool D) (it : Uint256) (f : PoolEntry D → Result (PoolEntry D)) :
    (p.modify it f).Ensures fun q => q.mapLinks = p.mapLinks :=
  (meets_true _).bind fun _ _ => (meets_true _).map fun _ _ => rfl

theorem modifyAll_mapLinks (p : TxMemPool D) (s : Finset Uint256)
    (f : PoolEntry D → Result (PoolEntry D)) :
    (p.modifyAll s f).Ensures fun q => q.mapLinks = p.mapLinks :=
  Ensures.foldlM_rel (fun p q : TxMemPool D => q.mapLinks = p.mapLinks) (fun _ => rfl)
    (fun h h' => h'.trans h) (fun p it => p.modify_mapLinks it f) _ p

/-! ## Removing entries

The child links to the entries that go are cut first, and then the parent links from them. -/

/-- The links on the way: `down` are the entries that are no child any more, `up` those that
are no parent any more. -/
structure Cut (G : Dag Uint256) (down up : Finset Uint256) (q : TxMemPool D) : Prop where
  nodes : ∀ it, it ∈ q.mapTx ↔ it ∈ G.nodes
  keys : ∀ it, it ∈ q.mapLinks ↔ it ∈ G.nodes
  children : ∀ a, q.childrenOf a = G.children a \ down
  parents : ∀ a b, a ∈ q.parentsOf b ↔ b ∈ G.children a ∧ ¬ (a ∈ up ∧ b ∉ down)

theorem Shows.cut (h : p.Shows G) : Cut G ∅ ∅ p where
  nodes := h.nodes
  keys := h.keys
  children a := by rw [h.children, sdiff_empty]
  parents a b := by simp [h.parents]

/-- What only changes statistics keeps the links. -/
theorem Shows.onlyStatistics (h : p.Shows G) (hbase : OnlyPackages p q)
    (hlinks : q.mapLinks = p.mapLinks) : q.Shows G where
  nodes it := (hbase.mem_iff it).trans (h.nodes it)
  keys it := by rw [hlinks, h.keys]
  children a := by rw [← h.children a, childrenOf, linksOf_congr hlinks]
  parents a b := by rw [← h.parents a b, parentsOf, linksOf_congr hlinks]

theorem Shows.updateDescendantsForRemoval (h : p.Shows G) (removeIt : Uint256) :
    (p.updateDescendantsForRemoval removeIt).Ensures fun q => q.Shows G := by
  refine ensures_iff.mpr fun q hq => h.onlyStatistics
    ((p.updateDescendantsForRemoval_frame removeIt).of_ok hq) ?_
  have hlinks : (p.updateDescendantsForRemoval removeIt).Ensures fun q => q.mapLinks = p.mapLinks :=
    (meets_true _).bind fun _ _ => (meets_true _).bind fun _ _ => p.modifyAll_mapLinks _ _
  exact hlinks.of_ok hq

/-- The links that `UpdateChild` makes. -/
def setChild (child : Uint256) (add : Bool) (l : PoolLinks) : PoolLinks :=
  { l with children := if add then insert child l.children else l.children.erase child }

/-- The links after `UpdateAncestorsOf`. -/
theorem updateAncestorsOf_links (p : TxMemPool D) (add : Bool) (it : Uint256)
    (setAncestors : Finset Uint256) : (p.updateAncestorsOf add it setAncestors).Ensures fun q =>
      q.mapLinks = (p.modifyAllLinks (p.parentsOf it) (setChild it add)).mapLinks := by
  have hparents : (p.getMemPoolParents it).Ensures fun s => s = p.parentsOf it :=
    ensures_iff.mpr fun _ => of_getMemPoolParents
  refine hparents.bind fun parentIters hparents => ?_
  subst hparents
  exact (meets_true _).bind fun _ _ => modifyAll_mapLinks _ _ _

theorem Cut.updateAncestorsForRemoval {down : Finset Uint256} (h : Cut G down ∅ p)
    {removeIt : Uint256} : (p.updateAncestorsForRemoval removeIt).Ensures
      fun q => Cut G (insert removeIt down) ∅ q := by
  refine ensures_iff.mpr fun q hq => ?_
  have hbase := (p.updateAncestorsForRemoval_frame removeIt).of_ok hq
  have hlinks : q.mapLinks =
      (p.modifyAllLinks (p.parentsOf removeIt) (setChild removeIt false)).mapLinks := by
    have hlinks : (p.updateAncestorsForRemoval removeIt).Ensures fun q => q.mapLinks = _ :=
      (meets_true _).bind fun s _ => p.updateAncestorsOf_links false removeIt s
    exact hlinks.of_ok hq
  refine ⟨fun it => (hbase.mem_iff it).trans (h.nodes it), fun it => ?_, fun a => ?_, fun a b => ?_⟩
  · rw [hlinks, mem_modifyAllLinks, h.keys]
    refine ⟨fun hit => hit.elim (fun hit => ?_) id, .inr⟩
    exact (G.mem ((h.parents it removeIt).mp hit).1).1
  · have ha := h.parents a removeIt
    rw [childrenOf, linksOf_congr hlinks, linksOf_modifyAllLinks]
    ext c
    split
    · change c ∈ (p.childrenOf a).erase removeIt ↔ _
      simp only [h.children, mem_erase, mem_sdiff, mem_insert]
      tauto
    · have hne : c ∈ G.children a → c ≠ removeIt := by
        rintro hc rfl
        simp_all
      simp only [h.children, mem_sdiff, mem_insert]
      tauto
  · have hsame : q.parentsOf b = p.parentsOf b := by
      rw [parentsOf, linksOf_congr hlinks, linksOf_modifyAllLinks]
      split <;> rfl
    simp [hsame, h.parents]

theorem Cut.updateChildrenForRemoval {R up : Finset Uint256} (h : Cut G R up p) :
    (p.updateChildrenForRemoval it).Ensures
      fun q => Cut G R (insert it up) q := by
  refine ensures_iff.mpr fun q hq => ?_
  have hbase := (p.updateChildrenForRemoval_frame it).of_ok hq
  have hq' : q = p.modifyAllLinks (p.childrenOf it)
      fun l => { l with parents := l.parents.erase it } := by
    obtain ⟨s, hs, hqs⟩ := map_eq_ok.mp hq
    rw [← hqs, of_getMemPoolChildren hs]
    rfl
  refine ⟨fun it => (hbase.mem_iff it).trans (h.nodes it), fun x => ?_, fun a => ?_, fun a b => ?_⟩
  · rw [hq', mem_modifyAllLinks, h.keys, h.children]
    refine ⟨fun hx => hx.elim (fun hx => ?_) id, .inr⟩
    exact (G.mem (mem_sdiff.mp hx).1).2
  · rw [← h.children, childrenOf, hq', linksOf_modifyAllLinks]
    split <;> rfl
  · rw [parentsOf, hq', linksOf_modifyAllLinks, h.children, mem_insert]
    split
    · next hb =>
      have hbR := (mem_sdiff.mp hb).2
      simp only [mem_erase, h.parents]
      tauto
    · next hb =>
      have hcase : b ∈ G.children a → a = it → b ∈ R := by
        rintro hc rfl
        by_contra hbR
        exact hb (mem_sdiff.mpr ⟨hc, hbR⟩)
      rw [h.parents]
      tauto

theorem Shows.updateForRemoveFromMempool (h : p.Shows G) (R : Finset Uint256)
    (updateDescendants : Bool) :
    (p.updateForRemoveFromMempool R updateDescendants).Ensures fun q => Cut G R R q := by
  have hdesc : (if updateDescendants then
      (inOrder R).foldlM TxMemPool.updateDescendantsForRemoval p
      else ok p).Ensures fun q => q.Shows G := by
    split
    · exact Meets.foldlM (fun _ (q : TxMemPool D) => q.Shows G) h
        fun _ a _ _ hq => hq.updateDescendantsForRemoval a
    · exact h
  refine hdesc.bind fun p1 h1 => ?_
  have hdown : ((inOrder R).foldlM updateAncestorsForRemoval p1).Ensures
      fun q => Cut G R ∅ q := by
    have hloop := Meets.foldlM (l := inOrder R)
      (fun done q => Cut G done.toFinset ∅ q) h1.cut fun done a q _ hq =>
        hq.updateAncestorsForRemoval.mono fun r hr => by
          rwa [toFinset_append, union_comm]
    rwa [toFinset_inOrder] at hloop
  refine hdown.bind fun p2 h2 => ?_
  have hloop := Meets.foldlM (l := inOrder R)
    (fun done q => Cut G R done.toFinset q) h2 fun done a q _ hq =>
      hq.updateChildrenForRemoval.mono fun r hr => by
        rwa [toFinset_append, union_comm]
  rwa [toFinset_inOrder] at hloop

/-- Entries are gone, and their links with them. -/
structure Erased (R : Finset Uint256) (p q : TxMemPool D) : Prop where
  mapTx : ∀ x, q.mapTx.lookup x = if x ∈ R then none else p.mapTx.lookup x
  mapLinks : ∀ x, q.mapLinks.lookup x = if x ∈ R then none else p.mapLinks.lookup x
  mapDeltas : q.mapDeltas = p.mapDeltas
  nCheckFrequency : q.nCheckFrequency = p.nCheckFrequency

theorem removeUnchecked_erased (p : TxMemPool D) (it : Uint256) :
    (p.removeUnchecked it).Ensures (Erased {it} p) := by
  refine (meets_true _).map fun e _ => ⟨fun x => ?_, fun x => ?_, rfl, rfl⟩
  · by_cases hx : x = it
    · subst hx
      simp
    · simp [hx]
  · by_cases hx : x = it
    · subst hx
      simp
    · simp [hx]

theorem foldlM_removeUnchecked_erased (p : TxMemPool D) (R : Finset Uint256) :
    ((inOrder R).foldlM removeUnchecked p).Ensures (Erased R p) := by
  have hloop := Meets.foldlM (l := inOrder R) (fun done q => Erased done.toFinset p q)
    ⟨fun _ => by simp, fun _ => by simp, rfl, rfl⟩ fun done a q _ hq =>
      (q.removeUnchecked_erased a).mono fun r hr =>
        ⟨fun x => by
          rw [hr.mapTx, hq.mapTx]
          by_cases hx : x = a <;> simp [hx], fun x => by
          rw [hr.mapLinks, hq.mapLinks]
          by_cases hx : x = a <;> simp [hx], hr.mapDeltas.trans hq.mapDeltas,
          hr.nCheckFrequency.trans hq.nCheckFrequency⟩
  rwa [toFinset_inOrder] at hloop

/-- Entries are gone, and the others differ in their statistics only. -/
structure Removed (R : Finset Uint256) (p q : TxMemPool D) : Prop where
  base : ∀ it, (q.mapTx.lookup it).map PoolEntry.base =
    if it ∈ R then none else (p.mapTx.lookup it).map PoolEntry.base
  mapDeltas : q.mapDeltas = p.mapDeltas
  nCheckFrequency : q.nCheckFrequency = p.nCheckFrequency

theorem removeStaged_removed (p : TxMemPool D) (R : Finset Uint256) (updateDescendants : Bool) :
    (p.removeStaged R updateDescendants).Ensures (Removed R p) := by
  refine (p.updateForRemoveFromMempool_frame R updateDescendants).bind fun p1 h1 => ?_
  refine (p1.foldlM_removeUnchecked_erased R).mono fun q hq => ⟨fun it => ?_,
    hq.mapDeltas.trans h1.mapDeltas, hq.nCheckFrequency.trans h1.nCheckFrequency⟩
  rw [hq.mapTx]
  split
  · rfl
  · exact h1.base it

/-- **Removing entries removes nodes of the graph.** -/
theorem Shows.removeStaged (h : p.Shows G) (R : Finset Uint256) (updateDescendants : Bool) :
    (p.removeStaged R updateDescendants).Ensures fun q => q.Shows (G.remove R) := by
  refine (h.updateForRemoveFromMempool R updateDescendants).bind fun p1 h1 => ?_
  refine (p1.foldlM_removeUnchecked_erased R).mono fun q hq => ⟨fun it => ?_, fun it => ?_,
    fun a => ?_, fun a b => ?_⟩
  · change _ ↔ it ∈ G.nodes \ R
    rw [← AList.lookup_isSome, hq.mapTx, mem_sdiff, ← h1.nodes, ← AList.lookup_isSome]
    split
    · next hR => simp [hR]
    · next hR => simp [hR]
  · change _ ↔ it ∈ G.nodes \ R
    rw [← AList.lookup_isSome, hq.mapLinks, mem_sdiff, ← h1.keys, ← AList.lookup_isSome]
    split
    · next hR => simp [hR]
    · next hR => simp [hR]
  · change _ = G.restChildren R a
    rw [childrenOf, linksOf, hq.mapLinks, Dag.restChildren, ← h1.children]
    split
    · rfl
    · rfl
  · change _ ↔ b ∈ G.restChildren R a
    rw [parentsOf, linksOf, hq.mapLinks, Dag.mem_restChildren]
    split
    · next hR => simp [hR, PoolLinks.empty]
    · next hR =>
      rw [← linksOf, h1.parents]
      tauto

/-! ## Adding an entry -/

/-- An entry gets parents. -/
theorem links_foldl_updateParent (p : TxMemPool D) (it : Uint256) (l : List Uint256) :
    (∀ x, (l.foldl (fun p pit => p.updateParent it pit true) p).linksOf x = if x = it then
      { p.linksOf it with parents := p.parentsOf it ∪ l.toFinset } else p.linksOf x) ∧
    (it ∈ p.mapLinks → ∀ x,
      x ∈ (l.foldl (fun p pit => p.updateParent it pit true) p).mapLinks ↔ x ∈ p.mapLinks) := by
  induction l generalizing p with
  | nil =>
    refine ⟨fun x => ?_, fun _ _ => Iff.rfl⟩
    split
    · next hx => simp [hx]
    · rfl
  | cons a l ih =>
    obtain ⟨hlinks, hkeys⟩ := ih (p.updateParent it a true)
    refine ⟨fun x => ?_, fun hit x => ?_⟩
    · rw [foldl_cons, hlinks, parentsOf, updateParent, linksOf_modifyLinks, linksOf_modifyLinks]
      split
      · simp
      · rfl
    · rw [foldl_cons, hkeys ((p.mem_modifyLinks it _ it).mpr (.inl rfl)), updateParent,
        mem_modifyLinks]
      exact ⟨fun hx => hx.elim (fun h => h ▸ hit) id, .inr⟩

variable {E : PoolEnv D}

theorem mem_parentsInPool {tx : CTransaction} {a : Uint256} :
    a ∈ p.parentsInPool tx ↔ (∃ o ∈ tx.prevouts, o.hash = a) ∧ a ∈ p.mapTx := by
  simp [parentsInPool]

theorem Shows.parentsInPool_subset (h : p.Shows G) (tx : CTransaction) :
    p.parentsInPool tx ⊆ G.nodes := fun a ha => (h.nodes a).mp (mem_parentsInPool.mp ha).2

/-- The fee delta that was set for a transaction. -/
def deltaOf (p : TxMemPool D) (hash : Uint256) : Int64 := ((p.mapDeltas.lookup hash).map (·.2)).getD 0

/-- An entry is new to the pool: its id is not there, it does not spend itself, and it knows no
fee delta yet. -/
structure Fresh (E : PoolEnv D) (p : TxMemPool D) (e : PoolEntry D) : Prop where
  notMem : e.hash E ∉ p.mapTx
  noSelf : ∀ o ∈ e.tx.prevouts, o.hash ≠ e.hash E
  feeDelta : e.feeDelta = 0

/-- The pool with a new entry, linked to its parents, while they are not linked to it and the
statistics are not updated. -/
structure Came (E : PoolEnv D) (e : PoolEntry D) (p q : TxMemPool D) : Prop where
  mapTx : ∀ x, q.mapTx.lookup x = if x = e.hash E then
    some (e.updateFeeDelta (p.deltaOf (e.hash E))) else p.mapTx.lookup x
  keys : ∀ x, x ∈ q.mapLinks ↔ x = e.hash E ∨ x ∈ p.mapLinks
  links : ∀ x, q.linksOf x =
    if x = e.hash E then ⟨p.parentsInPool e.tx, ∅⟩ else p.linksOf x
  mapDeltas : q.mapDeltas = p.mapDeltas
  nCheckFrequency : q.nCheckFrequency = p.nCheckFrequency

variable {e : PoolEntry D}

theorem updateFeeDelta_zero (h : e.feeDelta = 0) : e.updateFeeDelta 0 = e := by
  obtain ⟨⟨tx, nFee, feeDelta, sigOpCount, entryPriority, entryHeight, value, hle⟩, _⟩ := e
  obtain rfl : feeDelta = 0 := h
  simp [PoolEntry.updateFeeDelta]

/-- The new entry gets the fee delta that was set for it. -/
theorem applyFeeDelta_insertEntry (hfresh : Fresh E p e) (hlinks : e.hash E ∉ p.mapLinks) :
    (p.insertEntry E e).applyFeeDelta (e.hash E) = .ok { p with
      mapTx := p.mapTx.insert (e.hash E)
        (e.updateFeeDelta (p.deltaOf (e.hash E)))
      mapLinks := p.mapLinks.insert (e.hash E) .empty } := by
  simp only [applyFeeDelta, insertEntry, hfresh.notMem, hlinks, deltaOf]
  cases p.mapDeltas.lookup (e.hash E) with
  | none => simp [updateFeeDelta_zero hfresh.feeDelta]
  | some deltas =>
    by_cases hzero : deltas.2 = 0
    · simp [hzero, updateFeeDelta_zero hfresh.feeDelta]
    · simp [hzero, modify, entry, Except.bind, Except.map]

/-- `addUnchecked` of a new entry: it comes in with its parents, and then the statistics are
updated. -/
theorem exists_came (h : p.Shows G) (hfresh : Fresh E p e) (setAncestors : Finset Uint256) :
    ∃ p2, Came E e p p2 ∧ p.addWithAncestors E e setAncestors =
      (p2.updateAncestorsOf true (e.hash E) setAncestors).bind fun p3 =>
        (p3.updateEntryForAncestors (e.hash E) setAncestors).map
          (·.insertNullifiers e.tx) := by
  have hnewLinks : e.hash E ∉ p.mapLinks := fun hmem =>
    hfresh.notMem ((h.nodes _).mpr ((h.keys _).mp hmem))
  have happly := applyFeeDelta_insertEntry hfresh hnewLinks
  set p1 : TxMemPool D := { p with
    mapTx := p.mapTx.insert (e.hash E) (e.updateFeeDelta (p.deltaOf (e.hash E)))
    mapLinks := p.mapLinks.insert (e.hash E) .empty } with hp1
  -- it is not among its own parents
  have hP : (p1.insertNextTx e.tx).parentsInPool e.tx = p.parentsInPool e.tx := by
    ext a
    rw [mem_parentsInPool, mem_parentsInPool]
    refine and_congr_right fun ⟨o, ho, hoa⟩ => ?_
    exact (AList.mem_insert _).trans (or_iff_right fun hav => hfresh.noSelf o ho (hoa.trans hav))
  obtain ⟨hlinks, hkeys⟩ := links_foldl_updateParent (p1.insertNextTx e.tx)
    (e.hash E) (inOrder (p.parentsInPool e.tx))
  have hbase := (p1.insertNextTx e.tx).linkParents_frame (e.hash E) e.tx
  have hmapTx : ((p1.insertNextTx e.tx).linkParents (e.hash E) e.tx).mapTx = p1.mapTx :=
    List.foldlRecOn (motive := fun q : TxMemPool D => q.mapTx = p1.mapTx) _ _ rfl fun _ h _ _ => h
  refine ⟨(p1.insertNextTx e.tx).linkParents (e.hash E) e.tx, ⟨fun x => ?_, fun x => ?_,
    fun x => ?_, hbase.mapDeltas, hbase.nCheckFrequency⟩, ?_⟩
  · rw [hmapTx]
    by_cases hx : x = e.hash E
    · rw [hx, if_pos rfl]
      exact AList.lookup_insert _
    · rw [if_neg hx]
      exact AList.lookup_insert_ne hx
  · rw [linkParents, hP, hkeys (AList.mem_insert _ |>.mpr (.inl rfl))]
    exact AList.mem_insert _
  · rw [linkParents, hP, hlinks]
    split
    · simp [parentsOf, linksOf, hp1, insertNextTx, PoolLinks.empty]
    · next hx => simp [linksOf, hp1, insertNextTx, hx]
  · have hentry : p1.entry (e.hash E) =
        .ok (e.updateFeeDelta (p.deltaOf (e.hash E))) := by simp [entry, hp1]
    unfold addWithAncestors
    simp only [happly, Except.bind, hentry]
    rfl

theorem Came.mem_iff (h : Came E e p q) (x : Uint256) :
    x ∈ q.mapTx ↔ x = e.hash E ∨ x ∈ p.mapTx := by
  rw [← AList.lookup_isSome, h.mapTx, ← AList.lookup_isSome]
  split
  · next hx => simp [hx]
  · next hx => simp [hx]

/-- **A new entry is a new leaf**, under the transactions of the pool it spends from. -/
theorem Shows.addWithAncestors (h : p.Shows G) (hfresh : Fresh E p e) (hv : e.hash E ∉ G.nodes)
    (setAncestors : Finset Uint256) :
    (p.addWithAncestors E e setAncestors).Ensures
      fun q => q.Shows (G.addLeaf hv (h.parentsInPool_subset e.tx)) := by
  obtain ⟨p2, hcame, heq⟩ := exists_came h hfresh setAncestors
  rw [heq]
  refine ensures_iff.mpr fun q hq => ?_
  obtain ⟨p3, hp3, hq⟩ := bind_eq_ok.mp hq
  obtain ⟨p4, hp4, rfl⟩ := map_eq_ok.mp hq
  have hbase := ((p2.updateAncestorsOf_frame true _ setAncestors).of_ok hp3).trans
    ((p3.updateEntryForAncestors_frame _ setAncestors).of_ok hp4)
  have hlinks : p4.mapLinks =
      (p2.modifyAllLinks (p.parentsInPool e.tx) (setChild (e.hash E) true)).mapLinks := by
    have hlast : (p3.updateEntryForAncestors (e.hash E) setAncestors).Ensures
        fun q => q.mapLinks = p3.mapLinks := (meets_true _).bind fun _ _ => p3.modify_mapLinks _ _
    have hfirst := (p2.updateAncestorsOf_links true (e.hash E) setAncestors).of_ok hp3
    rw [parentsOf, hcame.links, if_pos rfl] at hfirst
    exact (hlast.of_ok hp4).trans hfirst
  have hleaf : p.linksOf (e.hash E) = .empty := by
    rw [linksOf, AList.lookup_eq_none.mpr fun hmem => hv ((h.keys _).mp hmem)]
    rfl
  have hchildren : ∀ x, p2.childrenOf x = p.childrenOf x := by
    intro x
    rw [childrenOf, hcame.links]
    split
    · next hx => rw [hx, childrenOf, hleaf]; rfl
    · rfl
  refine ⟨fun it => ?_, fun it => ?_, fun a => ?_, fun a b => ?_⟩
  · change it ∈ p4.mapTx ↔ it ∈ insert _ G.nodes
    rw [hbase.mem_iff, hcame.mem_iff, mem_insert, h.nodes]
  · change it ∈ p4.mapLinks ↔ it ∈ insert _ G.nodes
    rw [hlinks, mem_modifyAllLinks, hcame.keys, mem_insert, h.keys]
    exact ⟨fun hit => hit.elim (fun hit => .inr (h.parentsInPool_subset e.tx hit)) id, .inr⟩
  · change (p4.linksOf a).children = G.leafChildren _ _ a
    rw [linksOf_congr hlinks, linksOf_modifyAllLinks, Dag.leafChildren, ← h.children, ← hchildren]
    split
    · rfl
    · rfl
  · change a ∈ (p4.linksOf b).parents ↔ b ∈ G.leafChildren _ _ a
    have hsame : (p4.linksOf b).parents = p2.parentsOf b := by
      rw [linksOf_congr hlinks, linksOf_modifyAllLinks]
      split <;> rfl
    rw [hsame, parentsOf, hcame.links, Dag.mem_leafChildren]
    split
    · next hb =>
      subst hb
      exact ⟨fun ha => .inr ⟨ha, rfl⟩, fun ha => ha.elim (fun hc => absurd (G.mem hc).2 hv) (·.1)⟩
    · next hb => simp [h.parents, hb]

end TxMemPool

end Passion
