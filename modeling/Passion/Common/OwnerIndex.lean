import Mathlib.Data.List.AList

/-!
# Indexes by owner

The elements of a collection have keys, and no two of them the same one. A table says for each
key which element has it. It is kept by hand: the keys of an element are written when it joins
the collection and erased when it leaves. The table stays exact if no element joins that has a
key of another.
-/

namespace OwnerIndex

open AList

variable {κ τ : Type*} [DecidableEq κ]

/-- The keys of an element are written where there is nothing yet. -/
def insertNew (m : AList fun _ : κ => τ) (ks : List κ) (t : τ) : AList fun _ : κ => τ :=
  ks.foldl (fun m k => if k ∈ m then m else m.insert k t) m

/-- The keys of an element are written. -/
def insertAll (m : AList fun _ : κ => τ) (ks : List κ) (t : τ) : AList fun _ : κ => τ :=
  ks.foldl (fun m k => m.insert k t) m

/-- Keys are erased. -/
def eraseAll (m : AList fun _ : κ => τ) (ks : List κ) : AList fun _ : κ => τ :=
  ks.foldl (fun m k => m.erase k) m

section

variable (m : AList fun _ : κ => τ) (ks : List κ)

include m ks

theorem lookup_insertNew (t : τ) (k : κ) :
    (insertNew m ks t).lookup k = (m.lookup k).or (if k ∈ ks then some t else none) := by
  induction ks generalizing m with
  | nil => simp [insertNew]
  | cons a ks ih =>
    rw [insertNew, List.foldl_cons, ← insertNew, ih]
    by_cases hk : k = a
    · subst hk
      by_cases hmem : k ∈ m
      · obtain ⟨u, hu⟩ := Option.isSome_iff_exists.mp (lookup_isSome.mpr hmem)
        simp [hmem, hu]
      · simp [hmem, lookup_eq_none.mpr hmem]
    · have hsame : (if a ∈ m then m else m.insert a t).lookup k = m.lookup k := by
        split
        · rfl
        · rw [lookup_insert_ne hk]
      simp [hsame, hk]

theorem lookup_insertAll (t : τ) (k : κ) :
    (insertAll m ks t).lookup k = if k ∈ ks then some t else m.lookup k := by
  induction ks generalizing m with
  | nil => simp [insertAll]
  | cons a ks ih =>
    rw [insertAll, List.foldl_cons, ← insertAll, ih]
    by_cases hk : k = a
    · subst hk
      simp
    · simp [hk]

theorem lookup_eraseAll (k : κ) :
    (eraseAll m ks).lookup k = if k ∈ ks then none else m.lookup k := by
  induction ks generalizing m with
  | nil => simp [eraseAll]
  | cons a ks ih =>
    rw [eraseAll, List.foldl_cons, ← eraseAll, ih]
    by_cases hk : k = a
    · subst hk
      simp
    · simp [hk]

end

/-- **The index is exact**: a key leads to an element if and only if the element is in the
collection and has the key. -/
def Exact (m : AList fun _ : κ => τ) (keys : τ → List κ) (live : τ → Prop) : Prop :=
  ∀ k t, m.lookup k = some t ↔ live t ∧ k ∈ keys t

variable {m : AList fun _ : κ => τ} {keys : τ → List κ} {live : τ → Prop}

theorem exact_empty : Exact ∅ keys fun _ : τ => False := by
  intro k t
  simp

variable (h : Exact m keys live)

include h

/-- Where the index is exact, a key has one owner. -/
theorem Exact.unique {t u : τ} {k : κ} (ht : live t) (hu : live u) (hkt : k ∈ keys t)
    (hku : k ∈ keys u) : t = u :=
  Option.some.inj (((h k t).mpr ⟨ht, hkt⟩).symm.trans ((h k u).mpr ⟨hu, hku⟩))

variable {t : τ}

section

variable (hsep : ∀ u k, live u → k ∈ keys t → k ∈ keys u → u = t)

include hsep

/-- What leads from each key of the joining element to it, and nowhere else, is exact. -/
theorem Exact.of_lookup {m' : AList fun _ : κ => τ}
    (hlook : ∀ k, m'.lookup k = if k ∈ keys t then some t else m.lookup k) :
    Exact m' keys fun u => live u ∨ u = t := by
  intro k u
  rw [hlook k]
  by_cases hk : k ∈ keys t
  · rw [if_pos hk, Option.some.injEq]
    constructor
    · rintro rfl
      exact ⟨.inr rfl, hk⟩
    · rintro ⟨hu | rfl, hku⟩
      · exact (hsep u k hu hk hku).symm
      · rfl
  · rw [if_neg hk, h k u]
    constructor
    · exact fun hu => ⟨.inl hu.1, hu.2⟩
    · rintro ⟨hu | rfl, hku⟩
      · exact ⟨hu, hku⟩
      · exact absurd hku hk

/-- An element joins that has no key of another. -/
theorem Exact.insertAll : Exact (insertAll m (keys t) t) keys fun u => live u ∨ u = t :=
  h.of_lookup hsep (lookup_insertAll m (keys t) t)

/-- The same where what is written stays. -/
theorem Exact.insertNew : Exact (insertNew m (keys t) t) keys fun u => live u ∨ u = t := by
  refine h.of_lookup hsep fun k => ?_
  rw [lookup_insertNew]
  by_cases hk : k ∈ keys t
  · cases hu : m.lookup k with
    | none => simp
    | some u =>
      obtain ⟨hlive, hku⟩ := (h k u).mp hu
      simp [hsep u k hlive hk hku]
  · simp [hk]

end

/-- An element leaves, and its keys with it. -/
theorem Exact.eraseAll (ht : live t) :
    Exact (eraseAll m (keys t)) keys fun u => live u ∧ u ≠ t := by
  intro k u
  rw [lookup_eraseAll]
  by_cases hk : k ∈ keys t
  · rw [if_pos hk]
    constructor
    · exact fun h => by cases h
    · rintro ⟨⟨hu, hne⟩, hku⟩
      exact absurd (h.unique hu ht hku hk) hne
  · rw [if_neg hk, h k u]
    constructor
    · rintro ⟨hu, hku⟩
      exact ⟨⟨hu, fun heq => hk (heq ▸ hku)⟩, hku⟩
    · rintro ⟨⟨hu, -⟩, hku⟩
      exact ⟨hu, hku⟩

theorem Exact.congr {live' : τ → Prop} (hlive : ∀ t, live' t ↔ live t) : Exact m keys live' :=
  fun k t => by rw [h k t, hlive t]

end OwnerIndex
