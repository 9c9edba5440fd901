import Passion.Mempool.Links

/-!
# Statistics of packages

Each entry counts itself and its ancestors, and itself and its descendants: their number, their
size, their modified fees and, for ancestors, their signature operations. An update adds the same
numbers to each entry of a set; the sums have to be the right ones, and no assertion may stop it on
the way.
-/

namespace Passion

open Finset Except Traversal Dag

variable {D : Type}

/-- Size, modified fee, number and signature operations. -/
abbrev Figures := ℤ × Int64 × ℤ × ℤ

/-- What the assertions of `UpdateAncestorState` and `UpdateDescendantState` ask. -/
def Figures.Ok (side : Side) (t : Figures) : Prop :=
  0 < t.1 ∧ 0 < t.2.2.1 ∧ 0 ≤ t.2.2.2 ∧ (side = .down → t.2.2.2 = 0)

namespace PoolEntry

variable (e : PoolEntry D) (m : Figures)

/-- The statistics of an entry. Signature operations are not counted for descendants. -/
def stat : Side → Figures
  | .up => (e.nSizeWithAncestors, e.nModFeesWithAncestors, e.nCountWithAncestors,
      e.nSigOpCountWithAncestors)
  | .down => (e.nSizeWithDescendants, e.nModFeesWithDescendants, e.nCountWithDescendants, 0)

/-- What an entry adds to the statistics of its descendants, and to those of its ancestors. -/
def weight : Side → Figures
  | .up => (e.nTxSize, e.modifiedFee, 1, e.sigOpCount)
  | .down => (e.nTxSize, e.modifiedFee, 1, 0)

/-- `UpdateAncestorState` and `UpdateDescendantState`. -/
def update : Side → Result (PoolEntry D)
  | .up => e.updateAncestorState m.1 m.2.1 m.2.2.1 m.2.2.2
  | .down => e.updateDescendantState m.1 m.2.1 m.2.2.1

/-- The entry with numbers added to its statistics. -/
def add : Side → PoolEntry D
  | .up => { e with
      nSizeWithAncestors := e.nSizeWithAncestors + m.1
      nModFeesWithAncestors := e.nModFeesWithAncestors + m.2.1
      nCountWithAncestors := e.nCountWithAncestors + m.2.2.1
      nSigOpCountWithAncestors := e.nSigOpCountWithAncestors + m.2.2.2 }
  | .down => { e with
      nSizeWithDescendants := e.nSizeWithDescendants + m.1
      nModFeesWithDescendants := e.nModFeesWithDescendants + m.2.1
      nCountWithDescendants := e.nCountWithDescendants + m.2.2.1 }

theorem update_base (side : Side) : (e.update m side).Ensures fun e' => e'.base = e.base := by
  cases side with
  | up => exact e.updateAncestorState_base _ _ _ _
  | down => exact e.updateDescendantState_base _ _ _

variable {e : PoolEntry D} {m : Figures} {side : Side}

theorem update_eq (h : Figures.Ok side (e.stat side + m)) : e.update m side = .ok (e.add m side) := by
  obtain ⟨hsize, hcount, hsigOps, -⟩ := h
  cases side with
  | up =>
    simp only [stat, Prod.fst_add, Prod.snd_add] at hsize hcount hsigOps
    simp [update, updateAncestorState, add, hsize, hcount, hsigOps]
  | down =>
    simp only [stat, Prod.fst_add, Prod.snd_add] at hsize hcount
    simp [update, updateDescendantState, add, hsize, hcount]

theorem stat_add (h : Figures.Ok side (e.stat side + m)) (other : Side) :
    (e.add m side).stat other = e.stat other + if other = side then m else 0 := by
  obtain ⟨-, -, -, hsigOps⟩ := h
  cases side <;> cases other
  · rfl
  · simp [add, stat]
  · simp [add, stat]
  · have hm : m.2.2.2 = 0 := by simpa [stat] using hsigOps rfl
    simp [add, stat, Prod.ext_iff, hm]

/-- A transaction is written in at least one byte. -/
theorem nTxSize_pos (e : PoolEntry D) : 0 < e.nTxSize := by
  unfold CTxMemPoolEntry.nTxSize CTransaction.getTotalSize CTransaction.serialize
  simp only [List.length_append, Bytes.ofNatLE_length]
  omega

theorem ok_weight (e : PoolEntry D) : Figures.Ok side (e.weight side) := by
  cases side <;> simp [weight, Figures.Ok, e.nTxSize_pos]

end PoolEntry

theorem Figures.Ok.add {side : Side} {s t : Figures} (hs : Figures.Ok side s) (ht : Figures.Ok side t) :
    Figures.Ok side (s + t) :=
  ⟨add_pos hs.1 ht.1, add_pos hs.2.1 ht.2.1, add_nonneg hs.2.2.1 ht.2.2.1,
    fun h => by simp [hs.2.2.2 h, ht.2.2.2 h]⟩

namespace TxMemPool

variable (p q : TxMemPool D)

/-- The statistics at an id. -/
def stat (side : Side) (x : Uint256) : Figures := ((p.mapTx.lookup x).map (·.stat side)).getD 0

/-- What the entry at an id adds to the statistics of others. -/
def weight (side : Side) (x : Uint256) : Figures := ((p.mapTx.lookup x).map (·.weight side)).getD 0

/-- Numbers are added to the statistics, and nothing else changes. -/
structure Shifted (δ : Side → Uint256 → Figures) : Prop where
  base : OnlyPackages p q
  stat : ∀ side, ∀ x ∈ p.mapTx, q.stat side x = p.stat side x + δ side x

variable {p q} {side : Side} {x : Uint256}

theorem exists_lookup (h : x ∈ p.mapTx) : ∃ e, p.mapTx.lookup x = some e :=
  Option.isSome_iff_exists.mp (AList.lookup_isSome.mpr h)

variable {e : PoolEntry D} {s S : Finset Uint256}

theorem stat_eq (h : p.mapTx.lookup x = some e) : p.stat side x = e.stat side := by
  simp [stat, h]

theorem weight_eq (h : p.mapTx.lookup x = some e) : p.weight side x = e.weight side := by
  simp [weight, h]

theorem entry_eq (h : p.mapTx.lookup x = some e) : p.entry x = .ok e := by
  rw [entry, h]

/-- The loop that modifies the entries of a set, where it returns for each of them. -/
theorem exists_modifyAll {f : PoolEntry D → Result (PoolEntry D)} {g : PoolEntry D → PoolEntry D}
    (hf : ∀ x ∈ s, ∃ e, p.mapTx.lookup x = some e ∧ f e = .ok (g e)) :
    ∃ q, p.modifyAll s f = .ok q ∧ q.mapLinks = p.mapLinks ∧
      ∀ x, q.mapTx.lookup x = if x ∈ s then (p.mapTx.lookup x).map g else p.mapTx.lookup x := by
  suffices ∀ (l : List Uint256) (p : TxMemPool D), l.Nodup →
      (∀ x ∈ l, ∃ e, p.mapTx.lookup x = some e ∧ f e = .ok (g e)) →
      ∃ q, l.foldlM (fun p it => p.modify it f) p = .ok q ∧ q.mapLinks = p.mapLinks ∧
        ∀ x, q.mapTx.lookup x = if x ∈ l then (p.mapTx.lookup x).map g else p.mapTx.lookup x by
    obtain ⟨q, hq, hlinks, hlook⟩ := this (inOrder s) p (nodup_inOrder s)
      fun x hx => hf x (mem_inOrder.mp hx)
    exact ⟨q, hq, hlinks, fun x => by rw [hlook]; simp⟩
  intro l
  induction l with
  | nil => exact fun p _ _ => ⟨p, rfl, rfl, fun x => by simp⟩
  | cons a l ih =>
    intro p hnodup hl
    obtain ⟨ha, hnodup⟩ := List.nodup_cons.mp hnodup
    obtain ⟨e, he, hfe⟩ := hl a List.mem_cons_self
    have hstep : p.modify a f = .ok { p with mapTx := p.mapTx.insert a (g e) } := by
      simp [modify, entry, he, hfe, Except.bind, Except.map]
    obtain ⟨q, hq, hlinks, hlook⟩ := ih { p with mapTx := p.mapTx.insert a (g e) } hnodup
      fun x hx => by
        have hxa : x ≠ a := fun h => ha (h ▸ hx)
        rw [AList.lookup_insert_ne hxa]
        exact hl x (List.mem_cons_of_mem a hx)
    refine ⟨q, ?_, hlinks, fun x => ?_⟩
    · rw [List.foldlM_cons, hstep]
      exact hq
    · rw [hlook]
      by_cases hxa : x = a
      · subst hxa
        simp [ha, he]
      · simp [hxa]

theorem OnlyPackages.weight_eq (h : OnlyPackages p q) (side : Side) (x : Uint256) :
    q.weight side x = p.weight side x := by
  have hbase : ∀ e : PoolEntry D, e.weight side = ((e.base.1.nTxSize : ℤ), e.base.1.modifiedFee,
      1, if side = .up then (e.base.1.sigOpCount : ℤ) else 0) := fun e => by cases side <;> rfl
  simp only [weight, hbase]
  exact congrArg (·.getD 0) (h.map_base (fun b => ((b.1.nTxSize : ℤ), b.1.modifiedFee, (1 : ℤ),
    if side = .up then (b.1.sigOpCount : ℤ) else 0)) x)

theorem ok_weight (h : x ∈ p.mapTx) : Figures.Ok side (p.weight side x) := by
  obtain ⟨e, he⟩ := exists_lookup h
  rw [weight_eq he]
  exact e.ok_weight

/-! ## Shifts -/

namespace Shifted

variable {r : TxMemPool D} {δ δ' : Side → Uint256 → Figures}

theorem refl (p : TxMemPool D) : Shifted p p 0 := ⟨.refl p, fun _ _ _ => (add_zero _).symm⟩

theorem trans (h : Shifted p q δ) (h' : Shifted q r δ') : Shifted p r (δ + δ') where
  base := h.base.trans h'.base
  stat side x hx := by
    rw [h'.stat side x ((h.base.mem_iff x).mpr hx), h.stat side x hx, add_assoc]
    rfl

theorem congr (h : Shifted p q δ) (hδ : ∀ side, ∀ x ∈ p.mapTx, δ' side x = δ side x) :
    Shifted p q δ' :=
  ⟨h.base, fun side x hx => by rw [h.stat side x hx, hδ side x hx]⟩

theorem single_congr {f g : Uint256 → Figures} (h : Shifted p q (Pi.single side f))
    (hfg : ∀ x ∈ p.mapTx, g x = f x) : Shifted p q (Pi.single side g) := by
  refine h.congr fun other x hx => ?_
  by_cases ho : other = side
  · subst ho
    simp [hfg x hx]
  · simp [ho]

/-- Where the entries are the same, no statistics have changed. -/
theorem of_mapTx (hbase : OnlyPackages p q) (h : q.mapTx = p.mapTx) : Shifted p q 0 :=
  ⟨hbase, fun side x _ => by simp [TxMemPool.stat, h]⟩

end Shifted

/-- Numbers are added to the statistics of one side, for the entries of a set. -/
theorem exists_modifyAll_update (hs : ∀ x ∈ s, x ∈ p.mapTx) (m : Figures)
    (hok : ∀ x ∈ s, Figures.Ok side (p.stat side x + m)) :
    ∃ q, p.modifyAll s (fun e => e.update m side) = .ok q ∧ q.mapLinks = p.mapLinks ∧
      Shifted p q (Pi.single side fun x => if x ∈ s then m else 0) := by
  have hok' : ∀ x ∈ s, ∀ e, p.mapTx.lookup x = some e → Figures.Ok side (e.stat side + m) :=
    fun x hx e he => by simpa [stat_eq he] using hok x hx
  obtain ⟨q, hq, hlinks, hlook⟩ := exists_modifyAll fun x hx => by
    obtain ⟨e, he⟩ := exists_lookup (hs x hx)
    exact ⟨e, he, PoolEntry.update_eq (hok' x hx e he)⟩
  refine ⟨q, hq, hlinks, (p.modifyAll_frame s fun e => e.update_base _ _).of_ok hq,
    fun other x hx => ?_⟩
  obtain ⟨e, he⟩ := exists_lookup hx
  rw [stat_eq he, stat, hlook, he]
  split
  · next hxs =>
    rw [Option.map_some, Option.map_some, PoolEntry.stat_add (hok' x hxs e he)]
    by_cases ho : other = side
    · subst ho
      simp [hxs]
    · simp [ho]
  · next hxs =>
    by_cases ho : other = side
    · subst ho
      simp [hxs]
    · simp [ho]

/-! ## Exact statistics -/

variable {M : Type} [AddCommGroup M] {G : Dag Uint256}

/-- A part of the statistics of one side is the sum over that side in a graph. -/
def Exact (side : Side) (π : Figures →+ M) (G : Dag Uint256) (p : TxMemPool D) : Prop :=
  ∀ x ∈ G.nodes, π (p.stat side x) = ∑ a ∈ G.span side x, π (p.weight side a)

/-- Size, number and signature operations. -/
def counts : Figures →+ ℤ × ℤ × ℤ where
  toFun t := (t.1, t.2.2.1, t.2.2.2)
  map_zero' := rfl
  map_add' _ _ := rfl

theorem counts_apply (t : Figures) : counts t = (t.1, t.2.2.1, t.2.2.2) := rfl

/-- **Sizes, numbers and signature operations are exact.** -/
def Counted (G : Dag Uint256) (p : TxMemPool D) : Prop := ∀ side, Exact side counts G p

theorem ok_sum (hne : S.Nonempty) (hS : ∀ a ∈ S, a ∈ p.mapTx) :
    Figures.Ok side (∑ a ∈ S, p.weight side a) :=
  sum_induction_nonempty _ (Figures.Ok side) (fun _ _ => Figures.Ok.add) hne
    fun a ha => ok_weight (hS a ha)

/-- What is left of the sum over a package, with the entry itself, meets the assertions. -/
theorem Counted.ok_sub (h : Counted G p) (hnodes : ∀ it, it ∈ p.mapTx ↔ it ∈ G.nodes)
    {x : Uint256} (hx : x ∈ G.nodes) (hS : S ⊆ G.span side x) (hxS : x ∉ S) :
    Figures.Ok side (p.stat side x - ∑ a ∈ S, p.weight side a) := by
  have hsum : counts (p.stat side x - ∑ a ∈ S, p.weight side a) =
      counts (∑ a ∈ G.span side x \ S, p.weight side a) := by
    rw [map_sub, h side x hx, map_sum, map_sum, ← sum_sdiff hS, add_sub_cancel_right]
  have hpos : Figures.Ok side (∑ a ∈ G.span side x \ S, p.weight side a) :=
    ok_sum ⟨x, mem_sdiff.mpr ⟨self_mem_span hx, hxS⟩⟩ fun a ha =>
      (hnodes a).mpr (mem_of_span (mem_sdiff.mp ha).1)
  obtain ⟨hsize, hcount, hsigOps⟩ := by simpa only [Prod.ext_iff] using hsum
  exact ⟨hsize ▸ hpos.1, hcount ▸ hpos.2.1, hsigOps ▸ hpos.2.2.1, fun hside =>
    hsigOps.trans (hpos.2.2.2 hside)⟩

theorem Counted.ok (h : Counted G p) (hnodes : ∀ it, it ∈ p.mapTx ↔ it ∈ G.nodes) {x : Uint256}
    (hx : x ∈ G.nodes) : Figures.Ok side (p.stat side x) := by
  have hok : Figures.Ok side (p.stat side x - ∑ a ∈ ∅, p.weight side a) :=
    h.ok_sub hnodes hx (empty_subset _) (notMem_empty x)
  rwa [sum_empty, sub_zero] at hok

end TxMemPool

end Passion
