import Mathlib.Data.List.Sort

/-!
# Maps in the order of their keys

A finite map as the list of its entries in strictly increasing order of the keys, which is
the order a loop over it meets them in. Two such maps that agree on the entries a loop does
not pass over give it the same list.
-/

/-- A finite map, with its entries in the order of the keys. -/
structure OrderedMap (K V : Type*) [LinearOrder K] where
  entries : List (K × V)
  sorted : entries.Pairwise fun a b => a.1 < b.1

namespace OrderedMap

open List

variable {K V : Type*} [LinearOrder K]

/-- The map without entries. -/
def empty : OrderedMap K V := ⟨[], List.Pairwise.nil⟩

/-- The list with the value of a key written. -/
def insertEntry (k : K) (v : V) : List (K × V) → List (K × V)
  | [] => [(k, v)]
  | e :: es =>
    if k < e.1 then (k, v) :: e :: es
    else if k = e.1 then (k, v) :: es
    else e :: insertEntry k v es

variable {k : K} {e : K × V} {v w : V}

theorem mem_insertEntry {l : List (K × V)} (h : l.Pairwise fun a b => a.1 < b.1) :
    e ∈ insertEntry k v l ↔ e = (k, v) ∨ (e ∈ l ∧ e.1 ≠ k) := by
  induction l with
  | nil => simp [insertEntry]
  | cons d l ih =>
    obtain ⟨hd, hl⟩ := pairwise_cons.mp h
    unfold insertEntry
    split_ifs <;> grind

theorem sorted_insertEntry (k : K) (v : V) {l : List (K × V)}
    (h : l.Pairwise fun a b => a.1 < b.1) : (insertEntry k v l).Pairwise fun a b => a.1 < b.1 := by
  induction l with
  | nil => simp [insertEntry]
  | cons d l ih =>
    obtain ⟨hd, hl⟩ := pairwise_cons.mp h
    unfold insertEntry
    split_ifs with hlt heq
    · refine pairwise_cons.mpr ⟨fun e he => ?_, h⟩
      rcases mem_cons.mp he with rfl | he
      · exact hlt
      · exact hlt.trans (hd e he)
    · exact pairwise_cons.mpr ⟨fun e he => heq ▸ hd e he, hl⟩
    · refine pairwise_cons.mpr ⟨fun e he => ?_, ih hl⟩
      rcases (mem_insertEntry hl).mp he with rfl | ⟨he, -⟩
      · exact lt_of_le_of_ne (not_lt.mp hlt) (Ne.symm heq)
      · exact hd e he

/-- The map with the value of a key written. -/
def insert (m : OrderedMap K V) (k : K) (v : V) : OrderedMap K V :=
  ⟨insertEntry k v m.entries, sorted_insertEntry k v m.sorted⟩

/-- The map without the entry of a key. -/
def erase (m : OrderedMap K V) (k : K) : OrderedMap K V :=
  ⟨m.entries.filter fun e => decide (e.1 ≠ k), m.sorted.filter _⟩

variable {m : OrderedMap K V}

@[simp] theorem mem_insert : e ∈ (m.insert k v).entries ↔ e = (k, v) ∨ (e ∈ m.entries ∧ e.1 ≠ k) :=
  mem_insertEntry m.sorted

@[simp] theorem mem_erase : e ∈ (m.erase k).entries ↔ e ∈ m.entries ∧ e.1 ≠ k := by
  simp [erase]

/-- Erasing a key that is there takes away one entry. -/
theorem length_erase (h : e ∈ m.entries) : (m.erase e.1).entries.length + 1 = m.entries.length := by
  obtain ⟨l, hl⟩ := m
  obtain ⟨l₁, l₂, rfl⟩ := append_of_mem h
  obtain ⟨-, h₂, h₁₂⟩ := pairwise_append.mp hl
  have hleft : ∀ d ∈ l₁, decide (d.1 ≠ e.1) = true := fun d hd => by
    simpa using (h₁₂ d hd e (mem_cons_self ..)).ne
  have hright : ∀ d ∈ l₂, decide (d.1 ≠ e.1) = true := fun d hd => by
    simpa using ((pairwise_cons.mp h₂).1 d hd).ne'
  simp only [erase, filter_append, filter_cons, filter_eq_self.mpr hleft, filter_eq_self.mpr hright]
  simp
  omega

/-! ## Looking up a key -/

/-- The value of a key. -/
def find? (m : OrderedMap K V) (k : K) : Option V :=
  (m.entries.find? fun e => decide (e.1 = k)).map (·.2)

/-- A key has one entry. -/
theorem eq_of_mem (hv : (k, v) ∈ m.entries) (hw : (k, w) ∈ m.entries) : v = w := by
  have hkeys : (m.entries.map Prod.fst).Nodup := pairwise_map.mpr (m.sorted.imp ne_of_lt)
  exact congrArg Prod.snd (inj_on_of_nodup_map hkeys hv hw rfl)

theorem find?_eq_some_iff : m.find? k = some v ↔ (k, v) ∈ m.entries := by
  unfold find?
  constructor
  · intro h
    obtain ⟨e, he, rfl⟩ := Option.map_eq_some_iff.mp h
    have hk : e.1 = k := by simpa using find?_some he
    exact hk ▸ mem_of_find?_eq_some he
  · intro h
    have hsome : (m.entries.find? fun e => decide (e.1 = k)).isSome = true :=
      find?_isSome.mpr ⟨(k, v), h, by simp⟩
    obtain ⟨e, he⟩ := Option.isSome_iff_exists.mp hsome
    have hk : e.1 = k := by simpa using find?_some he
    have hmem : (k, e.2) ∈ m.entries := hk ▸ mem_of_find?_eq_some he
    rw [he, Option.map_some, eq_of_mem hmem h]

theorem find?_eq_none_iff : m.find? k = none ↔ ∀ v, (k, v) ∉ m.entries := by
  rw [Option.eq_none_iff_forall_ne_some]
  exact forall_congr' fun v => not_congr find?_eq_some_iff

/-- Writing a key that is there changes its entry in place. -/
theorem map_insert_of_mem {β : Type*} {f : K × V → β} (hmem : (k, w) ∈ m.entries)
    (hf : f (k, v) = f (k, w)) : (m.insert k v).entries.map f = m.entries.map f := by
  obtain ⟨l, hl⟩ := m
  show (insertEntry k v l).map f = l.map f
  induction l with
  | nil => simp at hmem
  | cons d l ih =>
    obtain ⟨hd, hl⟩ := pairwise_cons.mp hl
    unfold insertEntry
    rcases mem_cons.mp hmem with rfl | hmem
    · rw [if_neg (lt_irrefl _), if_pos rfl, map_cons, map_cons, hf]
    · have hlt : d.1 < k := hd _ hmem
      rw [if_neg hlt.not_gt, if_neg hlt.ne', map_cons, map_cons, ih hl hmem]

/-- Writing a key that is not there adds its entry. -/
theorem insert_perm (v : V) (h : m.find? k = none) :
    (m.insert k v).entries.Perm ((k, v) :: m.entries) := by
  have hnot := find?_eq_none_iff.mp h
  obtain ⟨l, hl⟩ := m
  show (insertEntry k v l).Perm ((k, v) :: l)
  induction l with
  | nil => exact Perm.refl _
  | cons d l ih =>
    have hne : k ≠ d.1 := fun hk => hnot d.2 (by rw [hk]; exact mem_cons_self ..)
    unfold insertEntry
    split_ifs with hlt
    · exact Perm.refl _
    · have hrest := ih (pairwise_cons.mp hl).2 (by
        simpa [find?, Ne.symm hne] using h) fun w hw => hnot w (mem_cons_of_mem _ hw)
      exact (hrest.cons d).trans (Perm.swap ..)

/-- The map without the entries of several keys. -/
def eraseAll (m : OrderedMap K V) (ks : List K) : OrderedMap K V := ks.foldl erase m

theorem entries_eraseAll (m : OrderedMap K V) (ks : List K) :
    (m.eraseAll ks).entries = m.entries.filter fun e => decide (e.1 ∉ ks) := by
  induction ks generalizing m with
  | nil => simp [eraseAll]
  | cons k ks ih =>
    have hstep : m.eraseAll (k :: ks) = (m.erase k).eraseAll ks := rfl
    rw [hstep, ih, erase, filter_filter]
    refine filter_congr fun e _ => ?_
    by_cases hk : e.1 = k
    · simp [hk]
    · simp [hk]

@[simp] theorem mem_eraseAll {ks : List K} :
    e ∈ (m.eraseAll ks).entries ↔ e ∈ m.entries ∧ e.1 ∉ ks := by
  simp [entries_eraseAll]

end OrderedMap
