import Mathlib.Data.List.NodupEquivFin

/-!
# Matching one list into another in order

`SublistForall₂ R l r` matches the elements of `l` to elements of `r` in order. A first fit
finds such a matching if there is one.
-/

namespace List

variable {α β : Type*} {R : α → β → Prop} {a : α} {b : β} {l : List α} {r : List β}

/-- The first element may be matched to the first partner that it has. -/
theorem sublistForall₂_cons_iff_of_rel (h : R a b) :
    SublistForall₂ R (a :: l) (b :: r) ↔ SublistForall₂ R l r := by
  refine ⟨fun hm => ?_, SublistForall₂.cons h⟩
  cases hm with
  | cons _ htail => exact htail
  | cons_right hskip =>
    obtain ⟨r', hall, hsub⟩ := sublistForall₂_iff.mp hskip
    cases hall with
    | cons _ htail => exact sublistForall₂_iff.mpr ⟨_, htail, (sublist_cons_self _ _).trans hsub⟩

/-- A partner that does not fit is passed over. -/
theorem sublistForall₂_cons_iff_of_not_rel (h : ¬ R a b) :
    SublistForall₂ R (a :: l) (b :: r) ↔ SublistForall₂ R (a :: l) r := by
  refine ⟨fun hm => ?_, SublistForall₂.cons_right⟩
  cases hm with
  | cons hab _ => exact absurd hab h
  | cons_right hskip => exact hskip

theorem SublistForall₂.length_le (h : SublistForall₂ R l r) : l.length ≤ r.length := by
  obtain ⟨r', hall, hsub⟩ := sublistForall₂_iff.mp h
  exact hall.length_eq.trans_le hsub.length_le

/-- **A matching is a strictly increasing assignment of positions.** -/
theorem sublistForall₂_iff_strictMono : SublistForall₂ R l r ↔
    ∃ f : Fin l.length → Fin r.length, StrictMono f ∧ ∀ i, R (l.get i) (r.get (f i)) := by
  rw [sublistForall₂_iff]
  constructor
  · rintro ⟨r', hall, hsub⟩
    obtain ⟨hlen, hrel⟩ := forall₂_iff_get.mp hall
    obtain ⟨f, hf⟩ := sublist_iff_exists_fin_orderEmbedding_get_eq.mp hsub
    refine ⟨f ∘ Fin.cast hlen, f.strictMono.comp (Fin.cast_strictMono hlen), fun i => ?_⟩
    rw [Function.comp_apply, ← hf]
    exact hrel i.val i.isLt (hlen ▸ i.isLt)
  · rintro ⟨f, hmono, hrel⟩
    refine ⟨ofFn fun i => r.get (f i), forall₂_iff_get.mpr ⟨by simp, fun i hl _ => ?_⟩, ?_⟩
    · simpa using hrel ⟨i, hl⟩
    · refine sublist_iff_exists_fin_orderEmbedding_get_eq.mpr
        ⟨OrderEmbedding.ofStrictMono (f ∘ Fin.cast (length_ofFn))
          (hmono.comp (Fin.cast_strictMono _)), fun i => ?_⟩
      rw [get_ofFn]
      rfl

end List
