import Mathlib.Data.Finset.Basic

/-!
# Ledgers of unspent items

A ledger is a finite set of items, and an action takes some items out and then puts some in.
-/

/-- **What an action does to a ledger**: the items it spends and those it creates. -/
structure LedgerAction (α : Type*) where
  spends : Finset α
  creates : Finset α

namespace LedgerAction

variable {α : Type*} [DecidableEq α] {x : α} {U : Finset α}

/-- The ledger after an action. -/
def apply (U : Finset α) (a : LedgerAction α) : Finset α := (U \ a.spends) ∪ a.creates

/-- The ledger after a list of actions. -/
def run (U : Finset α) (as : List (LedgerAction α)) : Finset α := as.foldl apply U

theorem mem_apply {a : LedgerAction α} :
    x ∈ a.apply U ↔ (x ∈ U ∧ x ∉ a.spends) ∨ x ∈ a.creates := by
  simp [apply]

/-- **An item that no action spends** is in the ledger at the end exactly if it was at the
beginning or some action has created it. -/
theorem mem_run_of_unspent {as : List (LedgerAction α)} (h : ∀ a ∈ as, x ∉ a.spends) :
    x ∈ run U as ↔ x ∈ U ∨ ∃ a ∈ as, x ∈ a.creates := by
  induction as generalizing U with
  | nil => simp [run]
  | cons a as ih =>
    have hhead : x ∉ a.spends := h a (by simp)
    have htail : ∀ b ∈ as, x ∉ b.spends := fun b hb => h b (by simp [hb])
    have hstep : x ∈ run U (a :: as) ↔ x ∈ a.apply U ∨ ∃ b ∈ as, x ∈ b.creates := ih htail
    rw [hstep, mem_apply]
    constructor
    · rintro ((⟨hU, -⟩ | hc) | ⟨b, hb, hc⟩)
      · exact .inl hU
      · exact .inr ⟨a, by simp, hc⟩
      · exact .inr ⟨b, by simp [hb], hc⟩
    · rintro (hU | ⟨b, hb, hc⟩)
      · exact .inl (.inl ⟨hU, hhead⟩)
      · rcases List.mem_cons.mp hb with rfl | hb
        · exact .inl (.inr hc)
        · exact .inr ⟨b, hb, hc⟩

end LedgerAction
