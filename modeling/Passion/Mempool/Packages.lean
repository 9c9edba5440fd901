import Mathlib.Algebra.BigOperators.Pi
import Passion.Mempool.Statistics

/-!
# Statistics when entries go and come

An entry that goes is subtracted from the statistics of what is above and below it, and one that
comes is added. The updates return, and statistics that were sums over the graph are sums over
the graph as it is then.
-/

namespace Passion

open Finset Except Traversal Dag Meets TxMemPool PoolEntry

variable {D : Type}

namespace TxMemPool

variable {p q : TxMemPool D} {G : Dag Uint256} {side : Side}
variable {K M : Type} {r it : Uint256} {R A : Finset Uint256}

/-- A further element of a sum over a part of a set. -/
theorem sum_inter_insert [DecidableEq K] [AddCommMonoid M] {a : K} {S T : Finset K}
    (ha : a ∉ T) (f : K → M) :
    ∑ i ∈ S ∩ insert a T, f i = (∑ i ∈ S ∩ T, f i) + if a ∈ S then f a else 0 := by
  split
  · next haS =>
    rw [inter_insert_of_mem haS, sum_insert, add_comm]
    exact fun hmem => ha (mem_inter.mp hmem).2
  · next haS => rw [inter_insert_of_notMem haS, add_zero]

theorem notMem_done [DecidableEq K] {done rest : List K} {r : K}
    (h : (done ++ r :: rest).Nodup) : r ∉ done.toFinset := fun hr =>
  (List.nodup_append.mp h).2.2 r (List.mem_toFinset.mp hr) r (by simp) rfl

theorem toFinset_done [DecidableEq K] (done : List K) (r : K) :
    (done ++ [r]).toFinset = insert r done.toFinset := by
  rw [List.toFinset_append, union_comm]
  rfl

variable {l : List Uint256}

/-- **A loop that takes entries out of the statistics of one side**: each turn subtracts an entry
from what is on the other side of it. -/
theorem yields_foldlM_subtract (side : Side) {f : TxMemPool D → Uint256 → Result (TxMemPool D)}
    (Inv : Finset Uint256 → TxMemPool D → Prop) (hInv : Inv ∅ p)
    (hnodes : ∀ it, it ∈ p.mapTx ↔ it ∈ G.nodes)
    (hok : ∀ x ∈ G.nodes, ∀ S ⊆ (G.span side x).erase x,
      Figures.Ok side (p.stat side x - ∑ a ∈ S, p.weight side a))
    (hf : ∀ done q r, Inv done q → r ∈ G.nodes →
      (∀ x ∈ (G.span side.flip r).erase r, Figures.Ok side (q.stat side x - q.weight side r)) →
      (f q r).Yields fun q' => Inv (insert r done) q' ∧ Shifted q q' (Pi.single side
        fun x => if x ∈ (G.span side.flip r).erase r then -q.weight side r else 0)) (hl : l.Nodup)
    (hmem : ∀ r ∈ l, r ∈ G.nodes) :
    (l.foldlM f p).Yields fun q => Inv l.toFinset q ∧ Shifted p q (Pi.single side
      fun x => -∑ a ∈ (G.span side x).erase x ∩ l.toFinset, p.weight side a) := by
  refine foldlM (fun done q => Inv done.toFinset q ∧ Shifted p q (Pi.single side
    fun x => -∑ a ∈ (G.span side x).erase x ∩ done.toFinset, p.weight side a)) ⟨hInv, ?_⟩ ?_
  · exact (Shifted.refl p).congr fun other x _ => by
      by_cases ho : other = side
      · subst ho
        simp
      · simp [ho]
  rintro done r q ⟨rest, rfl⟩ ⟨hq, hshift⟩
  have hr : r ∈ G.nodes := hmem r (by simp)
  have hnew : r ∉ done.toFinset := notMem_done hl
  have hiff : ∀ x ∈ G.nodes, x ∈ (G.span side.flip r).erase r ↔ r ∈ (G.span side x).erase x :=
    fun x hx => by rw [mem_erase, mem_erase, mem_span_flip hx hr, ne_comm]
  have hweight := hshift.base.weight_eq side r
  have hstep := hf done.toFinset q r hq hr fun x hx => by
    have hx' : x ∈ G.nodes := mem_of_span (mem_of_mem_erase hx)
    have hsum := sum_inter_insert (S := (G.span side x).erase x) hnew (p.weight side)
    rw [if_pos ((hiff x hx').mp hx)] at hsum
    rw [hweight, hshift.stat side x ((hnodes x).mpr hx'), Pi.single_eq_same, ← sub_eq_add_neg,
      sub_sub, ← hsum]
    exact hok x hx' _ inter_subset_left
  refine hstep.mono ?_
  rintro q' ⟨hq', hshift'⟩
  rw [toFinset_done]
  have htotal := hshift.trans hshift'
  rw [← Pi.single_add] at htotal
  refine ⟨hq', htotal.single_congr fun x hx => ?_⟩
  rw [sum_inter_insert hnew, neg_add, Pi.add_apply, hweight]
  simp [hiff x ((hnodes x).mp hx), neg_ite]

/-! ## Entries below one that goes -/

theorem Shows.yields_updateDescendantsForRemoval (h : p.Shows G) (hr : r ∈ G.nodes)
    (hok : ∀ x ∈ (G.below r).erase r, Figures.Ok .up (p.stat .up x - p.weight .up r)) :
    (p.updateDescendantsForRemoval r).Yields fun q => Shifted p q
      (Pi.single .up fun x => if x ∈ (G.below r).erase r then -p.weight .up r else 0) := by
  have hclosed : ∀ a ∈ (∅ : Finset Uint256), G.children a ⊆ ∅ := by simp
  obtain ⟨t, ht, hmem⟩ := exists_calculateDescendants h hr hclosed
  have hbelow : t = G.below r := by
    ext x
    rw [hmem, mem_below]
    simp only [notMem_empty, false_or]
    exact ⟨fun hrx => ⟨G.mem_of_reaches hrx hr, hrx⟩, And.right⟩
  subst hbelow
  obtain ⟨e, he⟩ := exists_lookup ((h.nodes r).mpr hr)
  rw [weight_eq he] at hok ⊢
  obtain ⟨q, hq, -, hshift⟩ := exists_modifyAll_update
    (fun x hx => (h.nodes x).mpr (mem_below.mp (mem_of_mem_erase hx)).1) (-e.weight .up)
    fun x hx => by rw [← sub_eq_add_neg]; exact hok x hx
  refine yields_iff.mpr ⟨q, ?_, hshift⟩
  rw [TxMemPool.updateDescendantsForRemoval, ht, entry_eq he]
  exact hq

/-! ## Entries above one that goes -/

/-- The numbers that `UpdateAncestorsOf` adds. -/
def signed (add : Bool) (m : Figures) : Figures := if add then m else -m

theorem yields_updateAncestorsOf (hit : it ∈ p.mapTx) (hlinks : it ∈ p.mapLinks)
    (hA : ∀ x ∈ A, x ∈ p.mapTx) (add : Bool)
    (hok : ∀ x ∈ A, Figures.Ok .down (p.stat .down x + signed add (p.weight .down it))) :
    (p.updateAncestorsOf add it A).Yields fun q => Shifted p q
      (Pi.single .down fun x => if x ∈ A then signed add (p.weight .down it) else 0) := by
  obtain ⟨e, he⟩ := exists_lookup hit
  rw [weight_eq he] at hok ⊢
  rw [updateAncestorsOf, getMemPoolParents_eq hlinks]
  have hmapTx := p.modifyAllLinks_mapTx (p.parentsOf it) (setChild it add)
  have hkeep := Shifted.of_mapTx (p.modifyAllLinks_frame _ _) hmapTx
  have hm : signed add (e.weight .down) = ((if add then 1 else -1) * (e.nTxSize : ℤ),
      Int64.ofInt (if add then 1 else -1) * e.modifiedFee, if add then 1 else -1, 0) := by
    cases add <;> simp [signed, PoolEntry.weight, Int64.ofInt_neg, Int64.neg_mul]
  obtain ⟨q, hq, -, hshift⟩ := exists_modifyAll_update (fun x hx => hmapTx ▸ hA x hx)
    (signed add (e.weight .down)) fun x hx => by
      rw [hkeep.stat .down x (hA x hx)]
      simpa using hok x hx
  rw [hm] at hq
  refine yields_iff.mpr ⟨q, ?_, (hkeep.trans hshift).congr fun _ _ _ => by rw [zero_add]⟩
  change ((p.modifyAllLinks (p.parentsOf it) (setChild it add)).entry it).bind _ = _
  rw [entry_eq (hmapTx ▸ he)]
  exact hq

theorem Cut.yields_updateAncestorsForRemoval {down : Finset Uint256} (h : Cut G down ∅ p)
    (hr : r ∈ G.nodes)
    (hok : ∀ x ∈ (G.above r).erase r, Figures.Ok .down (p.stat .down x - p.weight .down r)) :
    (p.updateAncestorsForRemoval r).Yields fun q => Shifted p q
      (Pi.single .down fun x => if x ∈ (G.above r).erase r then -p.weight .down r else 0) := by
  have hparents : ∀ a b, a ∈ p.parentsOf b ↔ b ∈ G.children a := fun a b => by
    simp [h.parents]
  rw [TxMemPool.updateAncestorsForRemoval, ancestorsOf_eq h.nodes h.keys hparents hr]
  exact yields_updateAncestorsOf ((h.nodes r).mpr hr) ((h.keys r).mpr hr)
    (fun x hx => (h.nodes x).mpr (mem_above.mp (mem_of_mem_erase hx)).1) false
    (by exact hok)

/-! ## Removing entries -/

/-- The third loop of `UpdateForRemoveFromMempool`. -/
theorem Cut.yields_foldlM_updateChildrenForRemoval (h : Cut G R ∅ p) (hmem : ∀ r ∈ l, r ∈ G.nodes) :
    (l.foldlM TxMemPool.updateChildrenForRemoval p).Yields fun q => q.mapTx = p.mapTx := by
  refine (foldlM (fun done q => Cut G R done.toFinset q ∧ q.mapTx = p.mapTx) ⟨h, rfl⟩
    ?_).mono fun _ hq => hq.2
  rintro done r q ⟨rest, rfl⟩ ⟨hcut, hmapTx⟩
  have hr : r ∈ G.nodes := hmem r (by simp)
  have hstep : (q.updateChildrenForRemoval r).Yields fun q' => q'.mapTx = q.mapTx := by
    rw [TxMemPool.updateChildrenForRemoval, getMemPoolChildren_eq ((hcut.keys r).mpr hr)]
    exact q.modifyAllLinks_mapTx _ _
  rw [toFinset_done]
  exact (hstep.and_ensures hcut.updateChildrenForRemoval).mono
    fun q' hq' => ⟨hq'.2, hq'.1.trans hmapTx⟩

/-- The entries of a set go, one after the other. -/
theorem yields_foldlM_removeUnchecked (hl : l.Nodup) (hmem : ∀ r ∈ l, r ∈ p.mapTx) :
    (l.foldlM removeUnchecked p).Yields fun _ => True := by
  refine (foldlM (fun done q => ∀ r, r ∉ done → r ∈ p.mapTx → r ∈ q.mapTx)
    (fun _ _ hr => hr) ?_).mono fun _ _ => trivial
  rintro done r q ⟨rest, rfl⟩ hq
  obtain ⟨e, he⟩ := exists_entry (hq r (by simpa using notMem_done hl) (hmem r (by simp)))
  rw [removeUnchecked, he]
  intro x hx hxp
  rw [List.mem_append, List.mem_singleton, not_or] at hx
  exact AList.mem_erase.mpr ⟨hx.2, hq x hx.1 hxp⟩

/-- Entries are gone from the statistics of the others. -/
structure Subtracted (G : Dag Uint256) (R : Finset Uint256) (p q : TxMemPool D) : Prop where
  weight : ∀ side, ∀ x ∉ R, q.weight side x = p.weight side x
  stat : ∀ side, ∀ x ∈ G.nodes, x ∉ R →
    q.stat side x = p.stat side x - ∑ a ∈ G.span side x ∩ R, p.weight side a

/-- `UpdateForRemoveFromMempool`, where the descendants of what goes are updated or go too. -/
theorem Shows.yields_updateForRemoveFromMempool (h : p.Shows G) (hc : Counted G p)
    (hR : R ⊆ G.nodes) (updateDescendants : Bool) :
    (p.updateForRemoveFromMempool R updateDescendants).Yields fun q => Shifted p q
      (Pi.single .up (fun x => if updateDescendants then
        -∑ a ∈ (G.above x).erase x ∩ R, p.weight .up a else 0) +
      Pi.single .down fun x => -∑ b ∈ (G.below x).erase x ∩ R, p.weight .down b) := by
  have hnodup : (inOrder R).Nodup := nodup_inOrder R
  have hmem : ∀ r ∈ inOrder R, r ∈ G.nodes := fun r hr => hR (mem_inOrder.mp hr)
  have hok : ∀ side, ∀ x ∈ G.nodes, ∀ S ⊆ (G.span side x).erase x,
      Figures.Ok side (p.stat side x - ∑ a ∈ S, p.weight side a) := fun side x hx S hS =>
    hc.ok_sub h.nodes hx (hS.trans (erase_subset _ _)) fun hxS => notMem_erase x _ (hS hxS)
  have hfirst : (if updateDescendants then
      (inOrder R).foldlM TxMemPool.updateDescendantsForRemoval p
      else ok p).Yields fun q => q.Shows G ∧ Shifted p q
        (Pi.single .up fun x => if updateDescendants then
          -∑ a ∈ (G.above x).erase x ∩ R, p.weight .up a else 0) := by
    cases updateDescendants with
    | false => exact ⟨h, (Shifted.refl p).congr fun side x _ => by cases side <;> simp⟩
    | true =>
      have hloop := yields_foldlM_subtract .up (fun _ q => q.Shows G) h h.nodes (hok .up)
        (fun _ q r hq hr hle => ((hq.yields_updateDescendantsForRemoval hr hle).and_ensures
          (hq.updateDescendantsForRemoval r)).mono fun _ h => ⟨h.2, h.1⟩) hnodup hmem
      rwa [toFinset_inOrder] at hloop
  refine hfirst.bind fun p1 ⟨h1, hs1⟩ => ?_
  have hsecond := yields_foldlM_subtract .down (fun done q => Cut G done ∅ q) h1.cut
    h1.nodes (fun x hx S hS => by
      rw [hs1.stat .down x ((h.nodes x).mpr hx),
        sum_congr rfl fun b _ => hs1.base.weight_eq .down b]
      simpa using hok .down x hx S hS)
    (fun _ q r hq hr hle => ((hq.yields_updateAncestorsForRemoval hr hle).and_ensures
      hq.updateAncestorsForRemoval).mono fun _ h => ⟨h.2, h.1⟩) hnodup hmem
  refine hsecond.bind fun p2 ⟨h2, hs2⟩ => ?_
  have hbase : ((inOrder R).foldlM updateChildrenForRemoval p2).Ensures (OnlyPackages p2) :=
    OnlyPackages.foldlM (fun p it => p.updateChildrenForRemoval_frame it) _ p2
  refine ((h2.yields_foldlM_updateChildrenForRemoval hmem).and_ensures hbase).mono ?_
  rintro q ⟨hmapTx, hq⟩
  refine ((hs1.trans hs2).trans (Shifted.of_mapTx hq hmapTx)).congr fun side x _ => ?_
  cases side with
  | up => simp
  | down => simp [span, hs1.base.weight_eq]

/-- **Entries go**: `RemoveStaged` returns, where the descendants of what goes are updated or go
too. -/
theorem Shows.yields_removeStaged (h : p.Shows G) (hc : Counted G p)
    (hR : R ⊆ G.nodes) {updateDescendants : Bool}
    (hdesc : updateDescendants = true ∨ ∀ r ∈ R, G.children r ⊆ R) :
    (p.removeStaged R updateDescendants).Yields
      fun q => q.Shows (G.remove R) ∧ Subtracted G R p q := by
  refine mono ?_ fun q hq => And.comm.mp hq
  refine and_ensures ?_ (h.removeStaged R updateDescendants)
  refine (h.yields_updateForRemoveFromMempool hc hR updateDescendants).bind fun p1 hs => ?_
  have hmem : ∀ r ∈ inOrder R, r ∈ p1.mapTx := fun r hr =>
    (hs.base.mem_iff r).mpr ((h.nodes r).mpr (hR (mem_inOrder.mp hr)))
  refine ((yields_foldlM_removeUnchecked (nodup_inOrder R) hmem).and_ensures
    (p1.foldlM_removeUnchecked_erased R)).mono ?_
  rintro q ⟨-, hq⟩
  refine ⟨fun side x hx => ?_, fun side x hxG hx => ?_⟩
  · rw [weight, hq.mapTx, if_neg hx]
    exact hs.base.weight_eq side x
  · have herase : (G.span side x).erase x ∩ R = G.span side x ∩ R := by
      rw [erase_inter, erase_eq_of_notMem]
      exact fun hmem => hx (mem_inter.mp hmem).2
    rw [stat, hq.mapTx, if_neg hx, sub_eq_add_neg, ← herase]
    refine (hs.stat side x ((h.nodes x).mpr hxG)).trans ?_
    cases side with
    | down => simp [span]
    | up =>
      by_cases hup : updateDescendants = true
      · simp [hup, span]
      · -- what stays is below nothing that goes
        have hnone : G.above x ∩ R = ∅ := by
          refine eq_empty_of_forall_notMem fun a ha => hx ?_
          obtain ⟨ha, haR⟩ := mem_inter.mp ha
          exact (mem_above.mp ha).2.mem_of_closed (hdesc.resolve_left hup) haR
        simp [span, hnone]

/-- Sums over one side are sums over what stays there. -/
theorem Exact.remove [AddCommGroup M] {π : Figures →+ M} (h : Exact side π G p)
    (hq : Subtracted G R p q) (hR : G.Avoids R) : Exact side π (G.remove R) q := by
  intro x hx
  obtain ⟨hxG, hxR⟩ := mem_sdiff.mp hx
  rw [hq.stat side x hxG hxR, map_sub, h x hxG, map_sum, span_remove hR hxR,
    ← sum_inter_add_sum_sdiff (G.span side x) R, add_sub_cancel_left]
  exact sum_congr rfl fun a ha => by rw [hq.weight side a (mem_sdiff.mp ha).2]

/-! ## A new entry -/

/-- An entry that counts nothing but itself, whatever its fee delta will be. -/
def Lone (e : PoolEntry D) : Prop :=
  ∀ side d, (e.updateFeeDelta d).stat side = (e.updateFeeDelta d).weight side

theorem lone_ofEntry (e : CTxMemPoolEntry D) (nTime : ℤ) (spends : Bool) :
    Lone (PoolEntry.ofEntry e nTime spends) := by
  intro side d
  cases side <;> simp [PoolEntry.stat, PoolEntry.weight, PoolEntry.updateFeeDelta,
    ofEntry, CTxMemPoolEntry.modifiedFee, CTxMemPoolEntry.nTxSize]

/-- The loop of `UpdateEntryForAncestors` sums up. -/
theorem sumAncestors_eq (hA : ∀ a ∈ A, a ∈ p.mapTx) :
    p.sumAncestors A = .ok ((∑ a ∈ A, p.weight .up a).1, (∑ a ∈ A, p.weight .up a).2.1,
      (∑ a ∈ A, p.weight .up a).2.2.2) := by
  suffices (p.sumAncestors A).Yields fun sum => sum = ((∑ a ∈ A, p.weight .up a).1,
      (∑ a ∈ A, p.weight .up a).2.1, (∑ a ∈ A, p.weight .up a).2.2.2) by
    obtain ⟨sum, hsum, rfl⟩ := yields_iff.mp this
    exact hsum
  have hloop := foldlM (A := fun _ => False) (l := inOrder A)
    (f := fun sum ancestorIt => (p.entry ancestorIt).map fun e =>
      (sum.1 + (e.nTxSize : ℤ), sum.2.1 + e.modifiedFee, sum.2.2 + (e.sigOpCount : ℤ)))
    (fun done sum => sum = ((∑ a ∈ done.toFinset, p.weight .up a).1,
      (∑ a ∈ done.toFinset, p.weight .up a).2.1, (∑ a ∈ done.toFinset, p.weight .up a).2.2.2))
    rfl fun done a sum hsplit hsum => by
      obtain ⟨rest, hl⟩ := hsplit
      have ha : a ∈ p.mapTx := hA a (mem_inOrder.mp (hl ▸ by simp))
      have hnew : a ∉ done.toFinset := notMem_done (hl ▸ nodup_inOrder A)
      obtain ⟨e, he⟩ := exists_lookup ha
      rw [entry_eq he, toFinset_done, sum_insert hnew, weight_eq he, hsum]
      simp [Except.map, Meets, PoolEntry.weight, add_comm]
  rwa [toFinset_inOrder] at hloop

theorem card_eq_sum_weight (hA : ∀ a ∈ A, a ∈ p.mapTx) :
    (A.card : ℤ) = (∑ a ∈ A, p.weight .up a).2.2.1 := by
  rw [Prod.snd_sum, Prod.snd_sum, Prod.fst_sum, sum_congr rfl (g := fun _ => 1)]
  · simp
  · intro a ha
    obtain ⟨e, he⟩ := exists_lookup (hA a ha)
    rw [weight_eq he]
    rfl

theorem modifyAll_singleton (p : TxMemPool D) (it : Uint256)
    (f : PoolEntry D → Result (PoolEntry D)) : p.modifyAll {it} f = p.modify it f := by
  change [it].foldlM (fun p it => p.modify it f) p = _
  rw [List.foldlM_cons]
  cases p.modify it f <;> rfl

theorem yields_updateEntryForAncestors (hit : it ∈ p.mapTx)
    (hA : ∀ a ∈ A, a ∈ p.mapTx) (hok : Figures.Ok .up (p.stat .up it + ∑ a ∈ A, p.weight .up a)) :
    (p.updateEntryForAncestors it A).Yields fun q => Shifted p q (Pi.single .up
      fun x => if x ∈ ({it} : Finset Uint256) then ∑ a ∈ A, p.weight .up a else 0) := by
  rw [updateEntryForAncestors, sumAncestors_eq hA, ok_bind, card_eq_sum_weight hA,
    ← modifyAll_singleton]
  obtain ⟨q, hq, -, hshift⟩ := exists_modifyAll_update (p := p)
    (fun x hx => mem_singleton.mp hx ▸ hit) (∑ a ∈ A, p.weight .up a)
    fun x hx => mem_singleton.mp hx ▸ hok
  exact yields_iff.mpr ⟨q, hq, hshift⟩

/-- A new entry stands in the statistics of the others, and they in its own. -/
structure Added (G : Dag Uint256) (v : Uint256) (A : Finset Uint256) (p q : TxMemPool D) :
    Prop where
  weight : ∀ side, ∀ x ∈ G.nodes, q.weight side x = p.weight side x
  up : ∀ x ∈ G.nodes, q.stat .up x = p.stat .up x
  up_new : q.stat .up v = q.weight .up v + ∑ a ∈ A, p.weight .up a
  down : ∀ x ∈ G.nodes, q.stat .down x = p.stat .down x + if x ∈ A then q.weight .down v else 0
  down_new : q.stat .down v = q.weight .down v

/-- The ancestors of a transaction that is not in the pool. -/
theorem Shows.exists_calculateMemPoolAncestors (h : p.Shows G) (e : CTxMemPoolEntry D) :
    ∃ A, p.calculateMemPoolAncestors e .noLimit = .ok A ∧
      ∀ a, a ∈ A ↔ ∃ k ∈ p.parentsInPool e.tx, Reaches G.children a k := by
  obtain ⟨A, hA, hmem⟩ := exists_climb h.nodes h.keys h.parents (h.parentsInPool_subset e.tx)
    e.nTxSize e.nTxSize
  refine ⟨A, ?_, hmem⟩
  have hnone : PackageLimits.noLimit.ancestorCount = none := rfl
  simp only [calculateMemPoolAncestors, hnone, exceeds_none, Bool.and_false]
  exact hA

variable {E : PoolEnv D} {e : PoolEntry D}

/-- The updates for an entry that has come in. -/
theorem Came.yields_added (hcame : Came E e p q) (h : p.Shows G) (hc : Counted G p) (hlone : Lone e)
    (hv : e.hash E ∉ G.nodes) (hA : A ⊆ G.nodes) :
    ((q.updateAncestorsOf true (e.hash E) A).bind fun p3 =>
      (p3.updateEntryForAncestors (e.hash E) A).map (·.insertNullifiers e.tx)).Yields
        (Added G (e.hash E) A p) := by
  have hne : ∀ x ∈ G.nodes, x ≠ e.hash E := fun x hx hxv => hv (hxv ▸ hx)
  have hlook : ∀ x ∈ G.nodes, q.mapTx.lookup x = p.mapTx.lookup x := fun x hx => by
    rw [hcame.mapTx, if_neg (hne x hx)]
  have hnew := hcame.mapTx (e.hash E)
  have hkey := (hcame.keys (e.hash E)).mpr (.inl rfl)
  rw [if_pos rfl] at hnew
  generalize e.hash E = v at *
  have hvA : v ∉ A := fun hmem => hv (hA hmem)
  have hmem : ∀ x ∈ insert v A, x ∈ q.mapTx := by
    intro x hx
    rcases mem_insert.mp hx with rfl | hx
    · exact AList.lookup_isSome.mp (by simp [hnew])
    · rw [← AList.lookup_isSome, hlook x (hA hx), AList.lookup_isSome]
      exact (h.nodes x).mpr (hA hx)
  have hvq := hmem v (mem_insert_self v A)
  have hAq : ∀ x ∈ A, x ∈ q.mapTx := fun x hx => hmem x (mem_insert_of_mem hx)
  have hself : ∀ side, q.stat side v = q.weight side v := fun side => by
    rw [stat_eq hnew, weight_eq hnew, hlone]
  have hold : ∀ side, ∀ x ∈ G.nodes, q.stat side x = p.stat side x := fun side x hx => by
    rw [stat, hlook x hx, ← stat]
  have hdownOk : ∀ x ∈ A, Figures.Ok .down (q.stat .down x + signed true (q.weight .down v)) :=
    fun x hx => by
      rw [hold _ x (hA hx)]
      exact (hc.ok h.nodes (hA hx)).add (ok_weight hvq)
  refine (yields_updateAncestorsOf hvq hkey hAq true hdownOk).bind fun p3 hs3 => ?_
  have hsum : ∑ a ∈ A, p3.weight .up a = ∑ a ∈ A, q.weight .up a :=
    sum_congr rfl fun a _ => hs3.base.weight_eq .up a
  have hupOk : Figures.Ok .up (p3.stat .up v + ∑ a ∈ A, p3.weight .up a) := by
    have hv3 : p3.stat .up v = q.weight .up v := by simp [hs3.stat .up v hvq, hself]
    rw [hv3, hsum, ← sum_insert hvA]
    exact ok_sum (insert_nonempty v A) hmem
  refine (yields_updateEntryForAncestors ((hs3.base.mem_iff v).mpr hvq)
    (fun a ha => (hs3.base.mem_iff a).mpr (hAq a ha)) hupOk).map fun p4 hs4 => ?_
  have hs := hs3.trans hs4
  have hweight : ∀ side, ∀ x ∈ G.nodes, q.weight side x = p.weight side x := fun side x hx => by
    rw [weight, hlook x hx, ← weight]
  have hq : ∀ x ∈ G.nodes, x ∈ q.mapTx := fun x hx => by
    rw [← AList.lookup_isSome, hlook x hx, AList.lookup_isSome]
    exact (h.nodes x).mpr hx
  rw [hsum, sum_congr rfl fun a ha => hweight .up a (hA ha)] at hs
  have hv4 : ∀ side, p4.weight side v = q.weight side v := fun side => hs.base.weight_eq side v
  suffices hadded : Added G v A p p4 from
    ⟨hadded.weight, hadded.up, hadded.up_new, hadded.down, hadded.down_new⟩
  refine ⟨fun side x hx => (hs.base.weight_eq side x).trans (hweight side x hx), fun x hx => ?_, ?_,
    fun x hx => ?_, ?_⟩
  · simp [hs.stat .up x (hq x hx), hne x hx, hold .up x hx]
  · simp [hs.stat .up v hvq, hself, hv4]
  · simp [hs.stat .down x (hq x hx), hold .down x hx, hv4, signed]
  · simp [hs.stat .down v hvq, hself, hv4, hvA]

/-- **An entry comes**: `addUnchecked` of a transaction that is new to the pool returns. -/
theorem Shows.yields_addUnchecked (h : p.Shows G) (hc : Counted G p) (hfresh : Fresh E p e)
    (hlone : Lone e) (hv : e.hash E ∉ G.nodes)
    (hA : ∀ a, a ∈ A ↔ ∃ k ∈ p.parentsInPool e.tx, Reaches G.children a k) :
    (p.addUnchecked E e).Yields fun q =>
      q.Shows (G.addLeaf hv (h.parentsInPool_subset e.tx)) ∧
        Added G (e.hash E) A p q := by
  have hAG : A ⊆ G.nodes := by
    intro a ha
    obtain ⟨k, hk, hak⟩ := (hA a).mp ha
    exact G.mem_of_reaches_to hak (h.parentsInPool_subset e.tx hk)
  obtain ⟨A', hA', hmem⟩ := h.exists_calculateMemPoolAncestors e.toCTxMemPoolEntry
  obtain rfl : A = A' := ext fun a => (hA a).trans (hmem a).symm
  rw [addUnchecked, hA', ok_bind]
  refine mono ?_ fun q hq => And.comm.mp hq
  refine and_ensures ?_ (h.addWithAncestors hfresh hv A)
  obtain ⟨p2, hcame, heq⟩ := exists_came h hfresh A
  rw [heq]
  exact hcame.yields_added h hc hlone hv hAG

/-- The new entry counts what is above it, and what is above it counts the new entry. -/
theorem Exact.addLeaf [AddCommGroup M] {v : Uint256} {P : Finset Uint256}
    {hv : v ∉ G.nodes} {hP : P ⊆ G.nodes} {π : Figures →+ M} (h : Exact side π G p)
    (hq : Added G v A p q)
    (hA : ∀ a, a ∈ A ↔ ∃ k ∈ P, Reaches G.children a k) : Exact side π (G.addLeaf hv hP) q := by
  have hAG : ∀ a ∈ A, a ∈ G.nodes := by
    intro a ha
    obtain ⟨k, hk, hak⟩ := (hA a).mp ha
    exact G.mem_of_reaches_to hak (hP hk)
  have hsum : ∀ S : Finset Uint256, (∀ a ∈ S, a ∈ G.nodes) →
      ∑ a ∈ S, π (q.weight side a) = ∑ a ∈ S, π (p.weight side a) := fun S hS =>
    sum_congr rfl fun a ha => by rw [hq.weight side a (hS a ha)]
  intro x hx
  rcases mem_insert.mp hx with rfl | hx
  · cases side with
    | up =>
      rw [span, above_addLeaf hv hP hA, sum_insert fun hmem => hv (hAG x hmem), hq.up_new, map_add,
        map_sum, hsum A hAG]
    | down => rw [span, below_addLeaf_leaf, sum_singleton, hq.down_new]
  · have hxv : x ≠ v := fun hxv => hv (hxv ▸ hx)
    have hx' := h x hx
    rw [← hsum _ fun a ha => mem_of_span ha] at hx'
    cases side with
    | up =>
      rw [span, above_addLeaf_of_ne hv hP hxv hx, hq.up x hx]
      exact hx'
    | down =>
      rw [span, below_addLeaf hv hP hA hxv, hq.down x hx, map_add, hx']
      split
      · rw [sum_insert fun hmem => hv (mem_below.mp hmem).1, add_comm]
        rfl
      · rw [map_zero, add_zero]
        rfl

end TxMemPool

end Passion
