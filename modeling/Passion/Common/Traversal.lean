import Mathlib.Data.Finset.Sort

/-!
# Traversals

A stage holds the elements that are to be visited. Each turn takes the least of them out, visits it,
and puts on the stage what the visit returns; a visit may fail. The rules carry an invariant through
the turns, and bound their number where a measure decreases.
-/

namespace Traversal

open Finset

variable {K σ ε : Type*} [LinearOrder K]

/-! ## Loops over a set -/

/-- The elements of a set in their order, as a loop meets them. -/
def inOrder (s : Finset K) : List K :=
  Quot.liftOn s.val (fun l => l.insertionSort (· ≤ ·)) fun l l' h => by
    refine List.Perm.eq_of_pairwise (fun a b _ _ => le_antisymm) (List.pairwise_insertionSort _ _)
      (List.pairwise_insertionSort _ _) ?_
    exact ((List.perm_insertionSort _ l).trans h).trans (List.perm_insertionSort _ l').symm

theorem coe_inOrder (s : Finset K) : (inOrder s : Multiset K) = s.val := by
  obtain ⟨⟨l⟩, h⟩ := s
  exact Quot.sound (List.perm_insertionSort _ l)

@[simp] theorem mem_inOrder {s : Finset K} {a : K} : a ∈ inOrder s ↔ a ∈ s := by
  rw [← Multiset.mem_coe, coe_inOrder, mem_val]

theorem nodup_inOrder (s : Finset K) : (inOrder s).Nodup := by
  rw [← Multiset.coe_nodup, coe_inOrder]
  exact s.nodup

@[simp] theorem toFinset_inOrder (s : Finset K) : (inOrder s).toFinset = s := by
  ext a
  simp

/-! ## Traversals of a stage -/

/-- The stage is emptied, for at most `n` turns: `out` says that more would be needed. -/
def drain (visit : K → σ → Except ε (Finset K × σ)) (out : ε) : ℕ → Finset K → σ → Except ε σ
  | 0, stage, s => if stage = ∅ then .ok s else .error out
  | n + 1, stage, s =>
    if h : stage.Nonempty then
      match visit (stage.min' h) s with
      | .error e => .error e
      | .ok (new, s') => drain visit out n (stage.erase (stage.min' h) ∪ new) s'
    else .ok s

variable {visit : K → σ → Except ε (Finset K × σ)} {out : ε}

@[simp] theorem drain_empty (n : ℕ) (s : σ) : drain visit out n ∅ s = .ok s := by
  cases n <;> simp [drain]

/-- **The rule of total traversals.** Where each visit returns, keeps the invariant and makes a
measure smaller, the traversal returns if it has as many turns as the measure says. -/
theorem exists_drain (Inv : Finset K → σ → Prop) (measure : Finset K → σ → ℕ)
    (hvisit : ∀ k stage s, k ∈ stage → Inv stage s → ∃ new s', visit k s = .ok (new, s') ∧
      Inv (stage.erase k ∪ new) s' ∧ measure (stage.erase k ∪ new) s' < measure stage s)
    {n : ℕ} {stage : Finset K} {s : σ} (hn : measure stage s ≤ n) (hInv : Inv stage s) :
    ∃ t, drain visit out n stage s = .ok t ∧ Inv ∅ t := by
  induction n generalizing stage s with
  | zero =>
    rcases stage.eq_empty_or_nonempty with rfl | ⟨k, hk⟩
    · exact ⟨s, by simp, hInv⟩
    · obtain ⟨new, s', -, -, hless⟩ := hvisit k stage s hk hInv
      omega
  | succ n ih =>
    rcases stage.eq_empty_or_nonempty with rfl | hne
    · exact ⟨s, by simp, hInv⟩
    · obtain ⟨new, s', hok, hInv', hless⟩ := hvisit _ stage s (stage.min'_mem hne) hInv
      have hn' : measure (stage.erase (stage.min' hne) ∪ new) s' ≤ n := by omega
      obtain ⟨t, ht, hend⟩ := ih hn' hInv'
      refine ⟨t, ?_, hend⟩
      rw [drain, dif_pos hne, hok]
      exact ht

/-- What was not seen becomes less when an element is seen. -/
theorem card_sdiff_insert_lt {U seen : Finset K} {k : K} (hk : k ∈ U) (hnew : k ∉ seen) :
    (U \ insert k seen).card < (U \ seen).card := by
  refine card_lt_card ⟨sdiff_subset_sdiff subset_rfl (subset_insert k seen), fun hsub => ?_⟩
  have hmem := hsub (mem_sdiff.mpr ⟨hk, hnew⟩)
  simp at hmem

/-! ## What can be reached -/

/-- The visit of a traversal that remembers: the successors that were not seen go on stage. -/
def visitNew (next : K → Except ε (Finset K)) (k : K) (seen : Finset K) :
    Except ε (Finset K × Finset K) :=
  (next k).map fun ks => (ks \ insert k seen, insert k seen)

/-- An element can be reached from another along the successors. -/
def Reaches (links : K → Finset K) : K → K → Prop := Relation.ReflTransGen fun a b => b ∈ links a

/-! ## What is known already -/

/-- A successor whose reach is known gives that; one whose reach is not goes on stage, if it was
not found. -/
def takeOver (known : K → Option (Finset K)) (s : Finset K × Finset K) (c : K) :
    Finset K × Finset K :=
  match known c with
  | some reach => (s.1, s.2 ∪ reach)
  | none => if c ∈ s.2 then s else (insert c s.1, s.2)

/-- The visit of a traversal that knows what can be reached from some elements: it takes that
over and does not visit them. -/
def visitKnown (next : K → Except ε (Finset K)) (known : K → Option (Finset K)) (k : K)
    (found : Finset K) : Except ε (Finset K × Finset K) :=
  (next k).map fun ks => (inOrder ks).foldl (takeOver known) (∅, insert k found)

variable {known : K → Option (Finset K)}

section TakeOver

variable {l : List K} {s : Finset K × Finset K} {a c y : K}

theorem mem_takeOver_snd :
    y ∈ (takeOver known s a).2 ↔ y ∈ s.2 ∨ ∃ S, known a = some S ∧ y ∈ S := by
  unfold takeOver
  cases known a with
  | some S => simp
  | none => dsimp only; split <;> simp

theorem mem_takeOver_fst :
    c ∈ (takeOver known s a).1 ↔ c ∈ s.1 ∨ c = a ∧ known a = none ∧ a ∉ s.2 := by
  unfold takeOver
  cases known a with
  | some S => simp
  | none =>
    dsimp only
    split
    · next ha => simp [ha]
    · next ha => simp [ha, or_comm]

/-- What a loop over successors finds: the reach of those where it is known. -/
theorem mem_foldl_takeOver_snd : y ∈ (l.foldl (takeOver known) s).2 ↔
    y ∈ s.2 ∨ ∃ c ∈ l, ∃ S, known c = some S ∧ y ∈ S := by
  induction l generalizing s with
  | nil => simp
  | cons a l ih =>
    rw [List.foldl_cons, ih, mem_takeOver_snd, or_assoc]
    simp

/-- What it puts on stage: the others, unless they were found. -/
theorem of_mem_foldl_takeOver_fst (h : c ∈ (l.foldl (takeOver known) s).1) :
    c ∈ s.1 ∨ c ∈ l ∧ c ∉ s.2 := by
  induction l generalizing s with
  | nil => exact .inl h
  | cons a l ih =>
    rcases ih h with hc | ⟨hc, hnot⟩
    · rcases mem_takeOver_fst.mp hc with hc | ⟨rfl, -, hnot⟩
      · exact .inl hc
      · exact .inr ⟨List.mem_cons_self, hnot⟩
    · exact .inr ⟨List.mem_cons_of_mem a hc, fun hin => hnot (mem_takeOver_snd.mpr (.inl hin))⟩

theorem mem_foldl_takeOver (h : c ∈ s.2 ∪ s.1 ∨ c ∈ l ∧ known c = none) :
    c ∈ (l.foldl (takeOver known) s).2 ∪ (l.foldl (takeOver known) s).1 := by
  induction l generalizing s with
  | nil => simpa using h
  | cons a l ih =>
    refine ih ?_
    simp only [mem_union, mem_takeOver_snd, mem_takeOver_fst, List.mem_cons] at h ⊢
    by_cases hs : c ∈ s.2
    · exact .inl (.inl (.inl hs))
    · rcases h with (h | h) | ⟨rfl | h, hnone⟩
      · exact absurd h hs
      · exact .inl (.inr (.inl h))
      · exact .inl (.inr (.inr ⟨rfl, hnone, hs⟩))
      · exact .inr ⟨h, hnone⟩

/-- Where nothing is known, the successors that were not found go on stage. -/
theorem foldl_takeOver_none (l : List K) (s : Finset K × Finset K) :
    l.foldl (takeOver fun _ => none) s = (s.1 ∪ (l.toFinset \ s.2), s.2) := by
  induction l generalizing s with
  | nil => simp
  | cons c l ih =>
    rw [List.foldl_cons, ih, takeOver]
    dsimp only
    split
    · next hc => simp [insert_sdiff_of_mem _ hc]
    · next hc => simp [insert_sdiff_of_notMem _ hc]

end TakeOver

/-- What is known of an element is right, up to the elements of `X`, and is closed under
successors. -/
structure Known (links : K → Finset K) (X : Finset K) (c : K) (S : Finset K) : Prop where
  sound : ∀ y ∈ S, Reaches links c y
  closed : ∀ y ∈ S, links y ⊆ S
  complete : ∀ y, Reaches links c y → y ∈ X ∨ y ∈ S

/-- A successor is seen to: it is found or on stage, or what it reaches is known and found. -/
def SeenTo (known : K → Option (Finset K)) (stage found : Finset K) (c : K) : Prop :=
  c ∈ found ∪ stage ∨ ∃ S, known c = some S ∧ S ⊆ found

/-- What a traversal that takes over what is known keeps, from a stage `first` in `U`. -/
structure Sweep (links : K → Finset K) (known : K → Option (Finset K))
    (U first : Finset K) (Found : K → Prop) (stage found : Finset K) : Prop where
  inside : stage ⊆ U
  start : first ⊆ found ∪ stage
  sound : ∀ y ∈ found ∪ stage, Found y
  cover : ∀ y ∈ found, y ∉ stage → ∀ c ∈ links y, SeenTo known stage found c

section Known

variable {next : K → Except ε (Finset K)} {links : K → Finset K} {U stage seen : Finset K}
variable {X : Finset K} (hnext : ∀ k ∈ U, next k = .ok (links k))
variable (hlinks : ∀ k ∈ U, links k ⊆ U) (hknown : ∀ c S, known c = some S → Known links X c S)

include hnext hlinks hknown

/-- One turn: an element leaves the stage, and what it leads to is seen to. -/
theorem Sweep.turn {first found : Finset K} {Found : K → Prop} {k : K}
    (hFound : ∀ {y z}, Found y → Reaches links y z → Found z) (hk : k ∈ stage)
    (h : Sweep links known U first Found stage found) :
    ∃ new grown, visitKnown next known k found = .ok (new, grown) ∧
      Sweep links known U first Found (stage.erase k ∪ new) grown ∧
      (U \ (grown \ (stage.erase k ∪ new))).card < (U \ (found \ stage)).card := by
  have hkU := h.inside hk
  have hkfound : Found k := h.sound k (mem_union_right _ hk)
  have hmem : ∀ {c}, c ∈ links k ↔ c ∈ inOrder (links k) := mem_inOrder.symm
  refine ⟨_, _, by rw [visitKnown, hnext k hkU]; rfl, ?_⟩
  set t := (inOrder (links k)).foldl (takeOver known) (∅, insert k found) with ht
  have hsnd : ∀ {y}, y ∈ t.2 ↔ (y = k ∨ y ∈ found) ∨
      ∃ c ∈ inOrder (links k), ∃ S, known c = some S ∧ y ∈ S := by
    simp [ht, mem_foldl_takeOver_snd]
  have hold : found ⊆ t.2 := fun y hy => hsnd.mpr (.inl (.inr hy))
  have hkt : k ∈ t.2 := hsnd.mpr (.inl (.inl rfl))
  have hfresh : ∀ c ∈ t.1, c ∈ links k ∧ c ≠ k ∧ c ∉ found := by
    intro c hc
    obtain ⟨hc, hnot⟩ := (of_mem_foldl_takeOver_fst hc).resolve_left (notMem_empty c)
    exact ⟨hmem.mpr hc, by simpa using hnot⟩
  have hgrow : found ∪ stage ⊆ t.2 ∪ (stage.erase k ∪ t.1) := by
    refine union_subset (hold.trans subset_union_left) fun x hx => ?_
    by_cases hxk : x = k
    · exact mem_union_left _ (hxk ▸ hkt)
    · exact mem_union_right _ (mem_union_left _ (mem_erase.mpr ⟨hxk, hx⟩))
  have hself : ∀ c ∈ links k, SeenTo known (stage.erase k ∪ t.1) t.2 c := by
    intro c hc
    cases hkn : known c with
    | none => exact .inl (union_subset_union_right subset_union_right
        (mem_foldl_takeOver (.inr ⟨hmem.mp hc, hkn⟩)))
    | some S => exact .inr ⟨S, hkn, fun y hy => hsnd.mpr (.inr ⟨c, hmem.mp hc, S, hkn, hy⟩)⟩
  refine ⟨⟨?_, h.start.trans hgrow, fun y hy => ?_, fun y hy hst c hc => ?_⟩, ?_⟩
  · exact union_subset ((erase_subset k stage).trans h.inside)
      fun c hc => hlinks k hkU (hfresh c hc).1
  · rcases mem_union.mp hy with hy | hy
    · rcases hsnd.mp hy with (rfl | hy) | ⟨c, hc, S, hS, hyS⟩
      · exact hkfound
      · exact h.sound y (mem_union_left _ hy)
      · have hkc : Reaches links k c := .single (hmem.mpr hc)
        exact hFound hkfound (hkc.trans ((hknown c S hS).sound y hyS))
    · rcases mem_union.mp hy with hy | hy
      · exact h.sound y (mem_union_right _ (mem_of_mem_erase hy))
      · exact hFound hkfound (.single (hfresh y hy).1)
  · rcases hsnd.mp hy with (rfl | hy) | ⟨d, hd, S, hS, hyS⟩
    · exact hself c hc
    · by_cases hyk : y = k
      · exact hself c (hyk ▸ hc)
      · have hout : y ∉ stage := fun hin =>
          hst (mem_union_left _ (mem_erase.mpr ⟨hyk, hin⟩))
        exact (h.cover y hy hout c hc).imp (hgrow ·) fun ⟨S, hS, hsub⟩ => ⟨S, hS, hsub.trans hold⟩
    · -- an element that was taken over has its successors with it
      exact .inl (mem_union_left _ (hsnd.mpr
        (.inr ⟨d, hd, S, hS, (hknown d S hS).closed y hyS hc⟩)))
  · -- what is done with: found, and not on stage
    have hsub : insert k (found \ stage) ⊆ t.2 \ (stage.erase k ∪ t.1) := by
      intro x hx
      rcases mem_insert.mp hx with rfl | hx
      · refine mem_sdiff.mpr ⟨hkt, fun hin => ?_⟩
        rcases mem_union.mp hin with hin | hin
        · exact absurd rfl (ne_of_mem_erase hin)
        · exact (hfresh x hin).2.1 rfl
      · obtain ⟨hxf, hxst⟩ := mem_sdiff.mp hx
        refine mem_sdiff.mpr ⟨hold hxf, fun hin => ?_⟩
        rcases mem_union.mp hin with hin | hin
        · exact hxst (mem_of_mem_erase hin)
        · exact (hfresh x hin).2.2 hxf
    refine (card_le_card (sdiff_subset_sdiff subset_rfl hsub)).trans_lt ?_
    exact card_sdiff_insert_lt hkU fun hin => (mem_sdiff.mp hin).2 hk

variable (hstage : stage ⊆ U) (hclosed : ∀ k ∈ seen, links k ⊆ seen)

include hstage hclosed

/-- **A traversal that takes over what is known finds what can be reached**, up to the elements
of `X`, where what was found before is closed under successors and the stage lies in a finite set
`U` whose elements have successors in `U`. -/
theorem exists_drain_visitKnown {n : ℕ} (hn : (U \ (seen \ stage)).card ≤ n) :
    ∃ t, drain (visitKnown next known) out n stage seen = .ok t ∧ seen ⊆ t ∧
      (∀ y ∈ t, y ∈ seen ∨ ∃ k ∈ stage, Reaches links k y) ∧
      ∀ k ∈ stage, ∀ y, Reaches links k y → y ∈ X ∨ y ∈ t := by
  have hfound : ∀ {y z}, (y ∈ seen ∨ ∃ k ∈ stage, Reaches links k y) → Reaches links y z →
      z ∈ seen ∨ ∃ k ∈ stage, Reaches links k z := by
    intro y z hy hyz
    induction hyz with
    | refl => exact hy
    | tail _ hab ih =>
      exact ih.imp (fun ha => hclosed _ ha hab) fun ⟨k, hk, hka⟩ => ⟨k, hk, hka.tail hab⟩
  obtain ⟨t, ht, -, hall, hsound, hcover⟩ := exists_drain
    (Sweep links known U (seen ∪ stage) _) (fun st found => (U \ (found \ st)).card)
    (fun k st found hk h => h.turn hnext hlinks hknown hfound hk) hn
    ⟨hstage, subset_rfl, fun y hy => (mem_union.mp hy).imp_right fun hy => ⟨y, hy, .refl⟩,
      fun y hy _ c hc => .inl (mem_union_left _ (hclosed y hy hc))⟩
  rw [union_empty] at hall hsound
  refine ⟨t, ht, subset_union_left.trans hall, hsound, fun k hk y hky => ?_⟩
  -- along a path one stays in what was found, or comes below an element whose reach was taken over
  have hpath : y ∈ t ∨ ∃ c S, known c = some S ∧ S ⊆ t ∧ Reaches links c y := by
    induction hky with
    | refl => exact .inl (hall (mem_union_right _ hk))
    | @tail a b _ hab ih =>
      rcases ih with ha | ⟨c, S, hS, hsub, hca⟩
      · rcases hcover a ha (notMem_empty a) b hab with hb | ⟨S, hS, hsub⟩
        · exact .inl (by simpa using hb)
        · exact .inr ⟨b, S, hS, hsub, .refl⟩
      · exact .inr ⟨c, S, hS, hsub, hca.tail hab⟩
  rcases hpath with hy | ⟨c, S, hS, hsub, hcy⟩
  · exact .inr hy
  · exact ((hknown c S hS).complete y hcy).imp_right fun h => hsub h

omit hknown in
/-- **A traversal that remembers collects what can be reached.** -/
theorem exists_drain_visitNew (hnew : Disjoint stage seen) {n : ℕ} (hn : (U \ seen).card ≤ n) :
    ∃ t, drain (visitNew next) out n stage seen = .ok t ∧
      ∀ x, x ∈ t ↔ x ∈ seen ∨ ∃ k ∈ stage, Reaches links k x := by
  have hvisit : visitNew next = visitKnown next fun _ => none := by
    funext k found
    simp [visitNew, visitKnown, foldl_takeOver_none]
  rw [← sdiff_eq_self_of_disjoint hnew.symm] at hn
  have hnone : ∀ c S, (fun _ => none) c = some S → Known links ∅ c S :=
    fun _ _ h => by cases h
  obtain ⟨t, ht, hseen, hsound, hcomplete⟩ :=
    exists_drain_visitKnown hnext hlinks hnone hstage hclosed hn
  refine ⟨t, hvisit ▸ ht, fun x => ⟨hsound x, ?_⟩⟩
  rintro (hx | ⟨k, hk, hkx⟩)
  · exact hseen hx
  · exact (hcomplete k hk x hkx).resolve_left (notMem_empty x)

end Known

end Traversal
