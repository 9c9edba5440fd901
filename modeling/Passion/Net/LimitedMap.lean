import Passion.Common.Runs
import Passion.Common.Tables
import Passion.Primitives.Transaction

/-!
# The map of limited size

`limitedmap.h`: a map with a reverse index of its elements by value, which is to keep the
`nMaxSize` elements with the highest values. `insert` makes room as soon as the map has
`nMaxSize` elements, the new one among them, and before the new one is in the index. So one
element less is kept, and a map for a single element reads the first entry of an empty index.
-/

namespace Passion

open List

/-- `limitedmap`. An iterator of `map` is the key it stands at. -/
structure LimitedMap (K V : Type) where
  map : AList fun _ : K => V
  rmap : List (V × K)
  nMaxSize : ℕ

/-- A call to the map. -/
inductive LimitedMapCall (K V : Type)
  | insert (k : K) (v : V)
  | erase (k : K)
  | update (k : K) (v : V)
  deriving DecidableEq

namespace LimitedMap

variable {K V : Type} [LinearOrder V]

/-- The map as it is constructed. -/
def new (nMaxSizeIn : ℕ) : LimitedMap K V := ⟨∅, [], nMaxSizeIn⟩

/-- `rmap.insert`, behind the entries of the same value. -/
def insertSorted (x : V × K) (rmap : List (V × K)) : List (V × K) :=
  rmap.orderedInsert (·.1 < ·.1) x

/-- The elements of a map, as the index lists them. -/
def byValue (m : AList fun _ : K => V) : List (V × K) := m.entries.map fun e => (e.2, e.1)

/-- **The index lists exactly the elements of the map**, by value. -/
structure Indexed (s : LimitedMap K V) : Prop where
  perm : s.rmap ~ byValue s.map
  sorted : s.rmap.Pairwise (·.1 ≤ ·.1)

variable {rmap : List (V × K)} {s t : LimitedMap K V}

theorem perm_insertSorted (x : V × K) (rmap : List (V × K)) : insertSorted x rmap ~ x :: rmap :=
  perm_orderedInsert ..

theorem sorted_insertSorted (x : V × K) (h : rmap.Pairwise (·.1 ≤ ·.1)) :
    (insertSorted x rmap).Pairwise (·.1 ≤ ·.1) := by
  induction rmap with
  | nil => simp [insertSorted]
  | cons y rmap ih =>
    obtain ⟨hy, hrmap⟩ := pairwise_cons.mp h
    rw [insertSorted, orderedInsert_cons]
    split
    · grind
    · refine pairwise_cons.mpr ⟨fun z hz => ?_, ih hrmap⟩
      rcases (mem_orderedInsert ..).mp hz with rfl | hz
      · grind
      · exact hy z hz

theorem Indexed.length (h : s.Indexed) : s.rmap.length = s.map.entries.length :=
  h.perm.length_eq.trans (length_map _)

variable [DecidableEq K] (s)

/-- `insert`. -/
def insert (k : K) (v : V) : Result (LimitedMap K V) :=
  if k ∈ s.map then .ok s
  else if s.nMaxSize ≠ 0 ∧ (s.map.insert k v).entries.length = s.nMaxSize then
    match s.rmap with
    | [] => .error (.outOfBounds "rmap.begin()->second")
    | e :: rmap =>
      .ok { s with map := (s.map.insert k v).erase e.2, rmap := insertSorted (v, k) rmap }
  else .ok { s with map := s.map.insert k v, rmap := insertSorted (v, k) s.rmap }

/-- The loop of `erase` and `update`, which takes the entry of a key out of those of its value. -/
def takeEntry (k : K) (f : LimitedMap K V → LimitedMap K V) : Result (LimitedMap K V) :=
  match s.map.lookup k with
  | none => .ok s
  | some v =>
    if (v, k) ∈ s.rmap then .ok (f { s with rmap := s.rmap.erase (v, k) })
    else .error (.assertion "0")

/-- `erase`. -/
def erase (k : K) : Result (LimitedMap K V) :=
  s.takeEntry k fun s => { s with map := s.map.erase k }

/-- `update`. -/
def update (k : K) (v : V) : Result (LimitedMap K V) :=
  s.takeEntry k fun s => { s with map := s.map.insert k v, rmap := insertSorted (v, k) s.rmap }

/-- One call. -/
def step (s : LimitedMap K V) : LimitedMapCall K V → Result (LimitedMap K V)
  | .insert k v => s.insert k v
  | .erase k => s.erase k
  | .update k v => s.update k v

/-- The call that inserts an element. -/
def insertOf (x : K × V) : LimitedMapCall K V := .insert x.1 x.2

/-- **The elements of a map are the `n` of a list with the highest values**, up to ties. -/
def Highest (n : ℕ) (xs : List (K × V)) (map : AList fun _ : K => V) : Prop :=
  ∃ kept rest, kept ++ rest ~ xs ∧ kept.length = min n xs.length ∧
    kept ~ map.entries.map (fun e => (e.1, e.2)) ∧ ∀ x ∈ kept, ∀ y ∈ rest, y.2 ≤ x.2

/-- **What is asked of the map** after some calls. -/
structure Meets (N : ℕ) (calls : List (LimitedMapCall K V)) (s : LimitedMap K V) : Prop where
  size : s.map.entries.length ≤ N
  indexed : s.Indexed
  highest : ∀ xs, (xs.map Prod.fst).Nodup → calls = xs.map insertOf → Highest N xs s.map

variable {s} {m : AList fun _ : K => V} {k : K} {v : V} {N : ℕ} {x : V × K}
variable {c : LimitedMapCall K V} {calls : List (LimitedMapCall K V)}

/-! ## The index -/

omit [LinearOrder V] in
theorem mem_byValue : x ∈ byValue m ↔ m.lookup x.2 = some x.1 := by
  constructor
  · intro hx
    obtain ⟨e, he, rfl⟩ := mem_map.mp hx
    exact AList.mem_lookup_iff.mpr he
  · intro hx
    exact mem_map.mpr ⟨⟨x.2, x.1⟩, AList.mem_lookup_iff.mp hx, rfl⟩

/-- The entry of an element goes with it. -/
theorem erase_perm (h : rmap ~ byValue m) (hx : x ∈ rmap) : rmap.erase x ~ byValue (m.erase x.2) := by
  have hm : byValue m ~ x :: byValue (m.erase x.2) :=
    (AList.entries_perm_erase (mem_byValue.mp (h.mem_iff.mp hx))).map _
  simpa using (h.trans hm).erase x

/-- **What the calls keep**: there are fewer than `N` elements, and they are in the index. -/
structure Sound (N : ℕ) (s : LimitedMap K V) : Prop where
  indexed : s.Indexed
  nMaxSize : s.nMaxSize = N
  size : s.rmap.length < N

theorem Sound.insert (h : s.Sound N) (hN : N ≠ 1) : ∃ t, s.insert k v = .ok t ∧ t.Sound N := by
  unfold LimitedMap.insert
  by_cases hk : k ∈ s.map
  · exact ⟨s, if_pos hk, h⟩
  have hlen := h.indexed.length
  obtain ⟨⟨hperm, hsorted⟩, rfl, hsize⟩ := h
  have hmap : byValue (s.map.insert k v) = (v, k) :: byValue s.map := by
    rw [byValue, AList.entries_insert_of_notMem hk]
    rfl
  rw [if_neg hk, AList.entries_insert_of_notMem hk, length_cons, ← hlen]
  by_cases hfull : s.rmap.length + 1 = s.nMaxSize
  · -- the index has an entry, since `nMaxSize` is not one
    obtain ⟨e, rmap, hrmap⟩ := exists_cons_of_length_pos (l := s.rmap) (by omega)
    rw [hrmap] at hperm hsorted hsize
    have hrest : e :: (v, k) :: rmap ~ byValue (s.map.insert k v) := by
      rw [hmap]
      exact (Perm.swap ..).trans (hperm.cons _)
    rw [if_pos ⟨by omega, hfull⟩, hrmap]
    refine ⟨_, rfl, ⟨?_, sorted_insertSorted _ hsorted.of_cons⟩, rfl, ?_⟩
    · exact (perm_insertSorted ..).trans (by simpa using erase_perm hrest mem_cons_self)
    · rwa [(perm_insertSorted ..).length_eq]
  · refine ⟨_, if_neg fun hc => hfull hc.2, ⟨?_, sorted_insertSorted _ hsorted⟩, rfl, ?_⟩
    · rw [hmap]
      exact (perm_insertSorted ..).trans (hperm.cons _)
    · rw [(perm_insertSorted ..).length_eq, length_cons]
      omega

theorem Sound.takeEntry (h : s.Sound N) {f : LimitedMap K V → LimitedMap K V}
    (hf : ∀ rmap, rmap ~ byValue (s.map.erase k) → rmap.Pairwise (·.1 ≤ ·.1) →
      rmap.length + 1 < N → Sound N (f { s with rmap := rmap })) :
    ∃ t, s.takeEntry k f = .ok t ∧ t.Sound N := by
  unfold LimitedMap.takeEntry
  cases hk : s.map.lookup k with
  | none => exact ⟨s, rfl, h⟩
  | some v =>
    have hmem : (v, k) ∈ s.rmap := h.indexed.perm.mem_iff.mpr (mem_byValue.mpr hk)
    refine ⟨_, if_pos hmem, hf _ (erase_perm h.indexed.perm hmem)
      (h.indexed.sorted.sublist erase_sublist) ?_⟩
    rw [length_erase_add_one hmem]
    exact h.size

theorem Sound.step (h : s.Sound N) (hc : N = 1 → ∀ x, c ≠ insertOf x) :
    ∃ t, s.step c = .ok t ∧ t.Sound N := by
  cases c with
  | insert k v => exact h.insert fun hN => hc hN (k, v) rfl
  | erase k =>
    simp only [LimitedMap.step, LimitedMap.erase]
    exact h.takeEntry fun rmap hperm hsorted hlen =>
      ⟨⟨hperm, hsorted⟩, h.nMaxSize, Nat.lt_of_succ_lt hlen⟩
  | update k v =>
    simp only [LimitedMap.step, LimitedMap.update]
    exact h.takeEntry fun rmap hperm hsorted hlen =>
      ⟨⟨(perm_insertSorted ..).trans (hperm.cons _), sorted_insertSorted _ hsorted⟩, h.nMaxSize,
        by rwa [(perm_insertSorted ..).length_eq]⟩

/-! ## Runs of calls -/

/-- A map for a single element does not take one: it looks for another to give up. -/
theorem ne_insertOf_of_one (h : s.Sound 1) (ht : s.step c = .ok t) (x : K × V) : c ≠ insertOf x := by
  rintro rfl
  have hrmap : s.rmap = [] := length_eq_zero_iff.mp (Nat.lt_one_iff.mp h.size)
  have hempty : s.map.entries = [] := by
    rw [← length_eq_zero_iff, ← h.indexed.length, hrmap]
    rfl
  have hk : x.1 ∉ s.map := by
    rw [AList.mem_keys, AList.keys, hempty]
    exact not_mem_nil
  simp [LimitedMap.step, insertOf, LimitedMap.insert, hk, h.nMaxSize, hempty, hrmap] at ht

theorem sound_after (hN : 0 < N) (h : Run.after step (new N) calls = .ok s) :
    s.Sound N ∧ (N = 1 → ∀ x, insertOf x ∉ calls) := by
  induction calls using reverseRecOn generalizing s with
  | nil =>
    cases h
    exact ⟨⟨⟨.refl _, .nil⟩, rfl, hN⟩, by simp⟩
  | append_singleton calls c ih =>
    obtain ⟨r, hr, hc⟩ := Run.after_concat.mp h
    obtain ⟨hsound, hnone⟩ := ih hr
    have hlast : N = 1 → ∀ x, c ≠ insertOf x := by
      rintro rfl
      exact ne_insertOf_of_one hsound hc
    obtain ⟨t, ht, hs⟩ := hsound.step hlast
    cases hc.symm.trans ht
    exact ⟨hs, fun h1 x => by simp [hnone h1 x, Ne.symm (hlast h1 x)]⟩

/-- As long as there are fewer than `N` elements none is given up. -/
theorem entries_after {xs : List (K × V)} (hnd : (xs.map Prod.fst).Nodup) (hlt : xs.length < N)
    (h : Run.after step (new N) (xs.map insertOf) = .ok s) :
    s.map.entries = (xs.map Prod.toSigma).reverse := by
  induction xs using reverseRecOn generalizing s with
  | nil =>
    cases h
    rfl
  | append_singleton xs x ih =>
    rw [map_append] at h hnd
    rw [length_append, length_singleton] at hlt
    obtain ⟨r, hr, hx⟩ := Run.after_concat.mp h
    have hentries := ih (nodup_append.mp hnd).1 (by omega) hr
    have hnew : x.1 ∉ r.map := fun hmem => by
      rw [AList.mem_keys, AList.keys, keys, hentries, map_reverse, mem_reverse, map_map] at hmem
      exact (nodup_append.mp hnd).2.2 x.1 hmem x.1 mem_cons_self rfl
    have hins : r.insert x.1 x.2 = .ok s := hx
    rw [LimitedMap.insert, if_neg hnew, AList.entries_insert_of_notMem hnew, if_neg] at hins
    · cases hins
      rw [AList.entries_insert_of_notMem hnew, hentries, map_append, reverse_append]
      rfl
    · rw [(sound_after (by omega) hr).1.nMaxSize, hentries, length_cons, length_reverse, length_map]
      omega

/-- **When the map of limited size keeps the highest values.** There are never more than `N`
elements, the index lists them, and no entry of an empty index is read, exactly if `N` is not one
or nothing is inserted; and what insertions leave are the `N` elements with the highest values
exactly if they are fewer than `N`: with the last of `N` elements one is given up already. -/
theorem limitedMap_iff (hN : 0 < N) (calls : List (LimitedMapCall K V)) :
    (∃ s, Run.after step (new N) calls = .ok s ∧ s.Meets N calls) ↔
      (N = 1 → ∀ x, insertOf x ∉ calls) ∧
        ∀ xs : List (K × V), (xs.map Prod.fst).Nodup → calls = xs.map insertOf → xs.length < N := by
  constructor
  · rintro ⟨s, hs, hmeets⟩
    obtain ⟨hsound, hone⟩ := sound_after hN hs
    refine ⟨hone, fun xs hnd hcalls => ?_⟩
    obtain ⟨kept, rest, -, hlen, hkept, -⟩ := hmeets.highest xs hnd hcalls
    have hsize := hsound.size
    rw [hsound.indexed.length, ← length_map, ← hkept.length_eq, hlen] at hsize
    omega
  · rintro ⟨hone, hfew⟩
    obtain ⟨s, hs, hsound⟩ : ∃ s, Run.after step (new N) calls = .ok s ∧ s.Sound N := by
      refine Run.exists_after _ ⟨⟨.refl _, .nil⟩, rfl, hN⟩ fun pre c post r hcalls _ hr => ?_
      exact hr.step fun h1 x hc => hone h1 x (by simp [hcalls, hc])
    refine ⟨s, hs, hsound.indexed.length ▸ hsound.size.le, hsound.indexed, fun xs hnd hcalls => ?_⟩
    have hlt := hfew xs hnd hcalls
    refine ⟨xs, [], by simp, by omega, ?_, by simp⟩
    rw [entries_after hnd hlt (hcalls ▸ hs), map_reverse, map_map]
    simp [Function.comp_def]

/-- Two elements in a map for three. -/
theorem limitedMap_three : ∃ s, Run.after step (new 3) [insertOf (0, 7), insertOf (1, 5)] = .ok s ∧
    s.Meets 3 [insertOf (0, 7), insertOf (1, 5)] :=
  (limitedMap_iff (by decide) _).mpr ⟨by simp, fun xs _ h => by
    rw [← length_map insertOf, ← h]
    decide⟩

/-- **A map for one element**: the first insertion reads an entry of the empty index. -/
theorem not_limitedMap_meets : ¬ ∀ N : ℕ, 0 < N → ∀ calls : List (LimitedMapCall ℕ ℕ),
    ∃ s, Run.after step (new N) calls = .ok s ∧ s.Meets N calls := by
  intro h
  obtain ⟨s, hs, -⟩ := h 1 one_pos [.insert 0 0]
  cases hs

end LimitedMap

end Passion
