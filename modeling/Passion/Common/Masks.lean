import Mathlib.Algebra.Order.BigOperators.Group.List

/-!
# Masks

A list of flags picks elements of a list. What is summed over the picked elements changes by
the weight of one element where its flag is set.
-/

namespace Mask

open List

variable {α : Type*} {M : Type*}

/-- The elements whose flag is set. -/
def picked : List α → List Bool → List α
  | x :: xs, b :: mask => if b then x :: picked xs mask else picked xs mask
  | _, _ => []

theorem picked_sublist (xs : List α) (mask : List Bool) : (picked xs mask).Sublist xs := by
  fun_induction picked xs mask with
  | case1 x xs mask ih => exact ih.cons_cons x
  | case2 x xs mask b hb ih => exact ih.cons x
  | case3 => exact nil_sublist _

theorem picked_replicate_true (xs : List α) : picked xs (List.replicate xs.length true) = xs := by
  induction xs with
  | nil => rfl
  | cons x xs ih => simpa [replicate_succ, picked] using ih

theorem picked_replicate_false (xs : List α) (n : ℕ) : picked xs (List.replicate n false) = [] := by
  induction xs generalizing n with
  | nil => rfl
  | cons x xs ih =>
    cases n with
    | zero => rfl
    | succ n => simpa [replicate_succ, picked] using ih n

/-- The sum over the picked elements. -/
def weight [AddMonoid M] (f : α → M) (xs : List α) (mask : List Bool) : M :=
  ((picked xs mask).map f).sum

/-- **One more element is picked.** -/
theorem weight_set_true [AddCommMonoid M] {f : α → M} {xs : List α} {mask : List Bool} {i : ℕ}
    {x : α} (hx : xs[i]? = some x) (hmask : mask[i]? = some false) :
    weight f xs (mask.set i true) = weight f xs mask + f x := by
  induction xs generalizing mask i with
  | nil => simp at hx
  | cons y xs ih =>
    cases mask with
    | nil => simp at hmask
    | cons b mask =>
      cases i with
      | zero =>
        obtain rfl : y = x := by simpa using hx
        obtain rfl : b = false := by simpa using hmask
        simp [weight, picked, add_comm]
      | succ i =>
        have ih : weight f xs (mask.set i true) = weight f xs mask + f x :=
          ih (by simpa using hx) (by simpa using hmask)
        cases b with
        | false => simpa [weight, picked] using ih
        | true =>
          simp only [weight, picked, if_true, map_cons, sum_cons]
          rw [add_assoc]
          exact congrArg _ ih

variable [AddCommMonoid M] [PartialOrder M] [IsOrderedAddMonoid M] {f : α → M} {xs : List α}

theorem weight_nonneg (h : ∀ x ∈ xs, 0 ≤ f x) (mask : List Bool) : 0 ≤ weight f xs mask := by
  refine sum_nonneg fun a ha => ?_
  obtain ⟨x, hx, rfl⟩ := mem_map.mp ha
  exact h x ((picked_sublist xs mask).subset hx)

theorem weight_le_sum (h : ∀ x ∈ xs, 0 ≤ f x) (mask : List Bool) :
    weight f xs mask ≤ (xs.map f).sum := by
  refine Sublist.sum_le_sum ((picked_sublist xs mask).map f) fun a ha => ?_
  obtain ⟨x, hx, rfl⟩ := mem_map.mp ha
  exact h x hx

end Mask
