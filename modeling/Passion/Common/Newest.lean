import Mathlib.Order.Lattice
import Mathlib.Tactic.Common

/-!
# A register that keeps the newest entry

Entries carry a stamp. A register takes an entry that is strictly newer than the one it holds, so
among entries with the latest stamp the first one to arrive stays. What it ends with depends on the
order of arrival only where entries with the latest stamp differ.
-/

namespace Newest

open List

variable {M T V : Type*} [LinearOrder T] (stamp : M → T)

/-- The register after one more entry. -/
def offer : Option M → M → Option M
  | none, m => some m
  | some a, m => if stamp m ≤ stamp a then some a else some m

/-- The register after a sequence of entries. -/
def offerAll (r : Option M) (ms : List M) : Option M := ms.foldl (offer stamp) r

/-- No entry of the list is newer. -/
def Latest (ms : List M) (a : M) : Prop := ∀ m ∈ ms, stamp m ≤ stamp a

variable {stamp} {ms : List M}

/-- A register that holds an entry as new as all that follow keeps it. -/
theorem offerAll_of_latest {a : M} (h : Latest stamp ms a) :
    offerAll stamp (some a) ms = some a := by
  induction ms with
  | nil => rfl
  | cons m ms ih =>
    have hm : offer stamp (some a) m = some a := if_pos (h m (mem_cons_self ..))
    rw [offerAll, foldl_cons, hm]
    exact ih fun x hx => h x (mem_cons_of_mem _ hx)

variable (stamp) in
/-- **What the register ends with**: one of the entries it saw, and none of them is newer. -/
theorem offerAll_spec {r : Option M} (h : r ≠ none ∨ ms ≠ []) :
    ∃ a, offerAll stamp r ms = some a ∧ (a ∈ ms ∨ r = some a) ∧ Latest stamp ms a ∧
      ∀ b ∈ r, stamp b ≤ stamp a := by
  induction ms generalizing r with
  | nil =>
    obtain ⟨a, rfl⟩ := Option.ne_none_iff_exists'.mp (h.resolve_right (by simp))
    exact ⟨a, rfl, .inr rfl, by simp [Latest], by simp⟩
  | cons m ms ih =>
    -- whichever of the two entries is kept, it is as new as both
    obtain ⟨c, hc, hmem, hm, hr⟩ : ∃ c, offer stamp r m = some c ∧ (c = m ∨ r = some c) ∧
        stamp m ≤ stamp c ∧ ∀ b ∈ r, stamp b ≤ stamp c := by
      cases r with
      | none => exact ⟨m, rfl, .inl rfl, le_rfl, by simp⟩
      | some b =>
        by_cases hle : stamp m ≤ stamp b
        · exact ⟨b, if_pos hle, .inr rfl, hle, by simp⟩
        · exact ⟨m, if_neg hle, .inl rfl, le_rfl, by simpa using le_of_not_ge hle⟩
    obtain ⟨a, ha, hin, hlatest, hca⟩ := ih (.inl (by simp) : some c ≠ none ∨ ms ≠ [])
    have hle : stamp c ≤ stamp a := hca c rfl
    refine ⟨a, ?_, ?_, ?_, fun b hb => le_trans (hr b hb) hle⟩
    · rw [offerAll, foldl_cons, hc]
      exact ha
    · rcases hin with hin | hin
      · exact .inl (mem_cons_of_mem _ hin)
      · have hac : c = a := Option.some.inj hin
        rcases hmem with hmem | hmem
        · exact .inl (by simp [← hac, hmem])
        · exact .inr (hac ▸ hmem)
    · intro x hx
      rcases mem_cons.mp hx with rfl | hx
      · exact le_trans hm hle
      · exact hlatest x hx

variable (stamp) in
/-- From an empty register. -/
theorem offerAll_none_spec (h : ms ≠ []) :
    ∃ a ∈ ms, offerAll stamp none ms = some a ∧ Latest stamp ms a := by
  obtain ⟨a, ha, hmem, hlatest, -⟩ := offerAll_spec stamp (.inr h)
  exact ⟨a, hmem.resolve_right (by simp), ha, hlatest⟩

/-- **The order of arrival does not matter** where the entries with the latest stamp agree:
two sequences with the same entries leave the same value. -/
theorem map_offerAll_eq {value : M → V} {xs ys : List M} (hmem : ∀ m, m ∈ xs ↔ m ∈ ys)
    (hval : ∀ a ∈ xs, ∀ b ∈ xs, Latest stamp xs a → Latest stamp xs b → value a = value b) :
    (offerAll stamp none xs).map value = (offerAll stamp none ys).map value := by
  by_cases hxs : xs = []
  · have hys : ys = [] := eq_nil_iff_forall_not_mem.mpr fun m hm => by
      simpa [hxs] using (hmem m).mpr hm
    rw [hxs, hys]
  · have hys : ys ≠ [] := by
      obtain ⟨x, hx⟩ := exists_mem_of_ne_nil xs hxs
      exact ne_nil_of_mem ((hmem x).mp hx)
    obtain ⟨a, hax, ha, hlatest⟩ := offerAll_none_spec stamp hxs
    obtain ⟨b, hby, hb, hlatest'⟩ := offerAll_none_spec stamp hys
    rw [ha, hb]
    exact congrArg some
      (hval a hax b ((hmem b).mpr hby) hlatest fun m hm => hlatest' m ((hmem m).mp hm))

end Newest
