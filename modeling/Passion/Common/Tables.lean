import Mathlib.Algebra.BigOperators.Group.List.Basic
import Mathlib.Algebra.GroupWithZero.Nat
import Mathlib.Data.Finset.Basic
import Mathlib.Data.List.AList

/-!
# Tables that are kept by hand

A table from keys to sets, where an element is entered under each of its keys and taken out
again, and a set that becomes empty is removed. And sums over the entries of a table: what
writing or erasing one entry does to them.
-/

namespace SetTable

open AList List

variable {κ τ : Type*} [DecidableEq κ] {m : AList fun _ : κ => Finset τ} {t : τ} {k : κ}

/-- The set of a key, empty if the key has none. -/
def owners (m : AList fun _ : κ => Finset τ) (k : κ) : Finset τ := (m.lookup k).getD ∅

/-- No set of the table is empty. -/
def NoEmpty (m : AList fun _ : κ => Finset τ) : Prop := ∀ k s, m.lookup k = some s → s.Nonempty

theorem owners_of_lookup {s : Finset τ} (h : m.lookup k = some s) : owners m k = s := by
  rw [owners, h]
  rfl

theorem exists_lookup_iff : (∃ s, m.lookup k = some s ∧ t ∈ s) ↔ t ∈ owners m k := by
  unfold owners
  cases m.lookup k <;> simp

variable [DecidableEq τ]

/-- An element is entered under a key. -/
def put (t : τ) (m : AList fun _ : κ => Finset τ) (k : κ) : AList fun _ : κ => Finset τ :=
  m.insert k (insert t (owners m k))

/-- An element is taken out under a key; an empty set is not kept. -/
def drop (t : τ) (m : AList fun _ : κ => Finset τ) (k : κ) : AList fun _ : κ => Finset τ :=
  match m.lookup k with
  | none => m
  | some s => if s.erase t = ∅ then m.erase k else m.insert k (s.erase t)

/-! ### One key -/

variable {u : τ}

theorem mem_owners_put {k' : κ} :
    u ∈ owners (put t m k) k' ↔ u ∈ owners m k' ∨ (u = t ∧ k' = k) := by
  by_cases hk : k' = k
  · subst hk
    rw [put, owners_of_lookup (lookup_insert _), or_comm]
    simp
  · simp [put, owners, hk]

theorem mem_owners_drop {k' : κ} :
    u ∈ owners (drop t m k) k' ↔ u ∈ owners m k' ∧ ¬ (u = t ∧ k' = k) := by
  unfold drop
  by_cases hk : k' = k
  · subst hk
    cases hs : m.lookup k' with
    | none => simp [owners, hs]
    | some s =>
      rw [owners_of_lookup hs]
      have herase : u ∈ s.erase t ↔ u ∈ s ∧ ¬ (u = t ∧ k' = k') := by
        rw [Finset.mem_erase]
        tauto
      rw [← herase]
      by_cases hempty : s.erase t = ∅
      · simp [hempty, owners]
      · simp [hempty, owners]
  · rw [and_iff_left fun h => hk h.2]
    cases m.lookup k with
    | none => rfl
    | some s => by_cases hempty : s.erase t = ∅ <;> simp [hempty, owners, hk]

theorem NoEmpty.put (h : NoEmpty m) (k : κ) : NoEmpty (put t m k) := by
  intro k' s hs
  by_cases hk : k' = k
  · subst hk
    rw [SetTable.put, lookup_insert] at hs
    cases hs
    exact Finset.insert_nonempty _ _
  · exact h k' s (by rwa [SetTable.put, lookup_insert_ne hk] at hs)

theorem NoEmpty.drop (h : NoEmpty m) (k : κ) : NoEmpty (drop t m k) := by
  unfold SetTable.drop
  cases m.lookup k with
  | none => exact h
  | some s =>
    intro k' s' hs'
    dsimp only at hs'
    by_cases hk : k' = k
    · subst hk
      split at hs'
      · simp at hs'
      · next hne =>
        rw [lookup_insert] at hs'
        cases hs'
        exact Finset.nonempty_iff_ne_empty.mpr hne
    · refine h k' s' ?_
      split at hs'
      · rwa [lookup_erase_ne hk] at hs'
      · rwa [lookup_insert_ne hk] at hs'

/-! ### Several keys, of which some may be the same -/

theorem mem_owners_foldl_put (ks : List κ) :
    u ∈ owners (ks.foldl (put t) m) k ↔ u ∈ owners m k ∨ (u = t ∧ k ∈ ks) := by
  induction ks generalizing m with
  | nil => simp
  | cons a ks ih =>
    rw [foldl_cons, ih, mem_owners_put, mem_cons]
    tauto

theorem mem_owners_foldl_drop (ks : List κ) :
    u ∈ owners (ks.foldl (drop t) m) k ↔ u ∈ owners m k ∧ ¬ (u = t ∧ k ∈ ks) := by
  induction ks generalizing m with
  | nil => simp
  | cons a ks ih =>
    rw [foldl_cons, ih, mem_owners_drop, mem_cons]
    tauto

theorem NoEmpty.foldl_put (h : NoEmpty m) (ks : List κ) : NoEmpty (ks.foldl (SetTable.put t) m) :=
  foldlRecOn _ _ h fun _ hm k _ => hm.put k

theorem NoEmpty.foldl_drop (h : NoEmpty m) (ks : List κ) :
    NoEmpty (ks.foldl (SetTable.drop t) m) :=
  foldlRecOn _ _ h fun _ hm k _ => hm.drop k

end SetTable

/-! ## Sums over a table -/

namespace AList

variable {κ V : Type*} [DecidableEq κ] {m : AList fun _ : κ => V} {k : κ} {v : V}

theorem lookup_insert_eq_ite (k' : κ) :
    (m.insert k v).lookup k' = if k' = k then some v else m.lookup k' := by
  split
  · next hk => rw [hk, lookup_insert]
  · next hk => exact lookup_insert_ne hk

theorem lookup_erase_eq_ite (k' : κ) :
    (m.erase k).lookup k' = if k' = k then none else m.lookup k' := by
  split
  · next hk => rw [hk, lookup_erase]
  · next hk => exact lookup_erase_ne hk

/-- An entry, and those of the other keys. -/
theorem entries_perm_erase (h : m.lookup k = some v) :
    m.entries.Perm (⟨k, v⟩ :: (m.erase k).entries) := by
  have hmem : k ∈ m.entries.keys := lookup_isSome.mp (by rw [h]; rfl)
  obtain ⟨w, l₁, l₂, hnot, heq, herase⟩ := List.exists_of_kerase hmem
  obtain rfl : w = v := by
    rw [lookup, heq, List.dlookup_append, List.dlookup_eq_none.mpr hnot] at h
    simpa using h
  have herase : (m.erase k).entries = l₁ ++ l₂ := herase
  rw [heq, herase]
  exact List.perm_middle

/-- The sum of a quantity over the entries. -/
def total (f : V → ℕ) (m : AList fun _ : κ => V) : ℕ := (m.entries.map fun e => f e.2).sum

theorem total_erase (f : V → ℕ) (h : m.lookup k = some v) : m.total f = f v + (m.erase k).total f :=
  ((entries_perm_erase h).map fun e : Σ _ : κ, V => f e.2).sum_eq

theorem total_insert (f : V → ℕ) : (m.insert k v).total f = f v + (m.erase k).total f := by
  rfl

theorem total_insert_new (f : V → ℕ) (h : m.lookup k = none) :
    (m.insert k v).total f = f v + m.total f := by
  have hnot : k ∉ m := lookup_eq_none.mp h
  rw [total, entries_insert_of_notMem hnot]
  rfl

omit [DecidableEq κ] in
theorem length_eq_total : m.entries.length = m.total fun _ => 1 := by
  simp [total]

end AList
