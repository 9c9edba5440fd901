import Mathlib.Data.List.AList

/-!
# Worklists

A queue of elements and a list of pairs `(a, b)` that say that `b` waits for `a`. Taking an element
from the queue runs a step for it and moves what waited for it to the end of the queue. The length
of the two lists together bounds the number of turns.

Where an element that was taken may itself be put aside, under a key by which it is recalled later,
a rank of the two lengths bounds the number of turns. Priority queues are lists from which the
greatest element is taken.
-/

namespace Worklist

open List AList

variable {K σ : Type*} [DecidableEq K]

/-- The elements that wait for `k`, in order. -/
def waitingFor (waiting : List (K × K)) (k : K) : List K :=
  (waiting.filter fun e => e.1 = k).map Prod.snd

/-- The pairs that are not about `k`. -/
def others (waiting : List (K × K)) (k : K) : List (K × K) :=
  waiting.filter fun e => e.1 ≠ k

variable {waiting : List (K × K)}

theorem mem_waitingFor {k b : K} : b ∈ waitingFor waiting k ↔ (k, b) ∈ waiting := by
  simp [waitingFor]

theorem mem_others {k : K} {e : K × K} : e ∈ others waiting k ↔ e ∈ waiting ∧ e.1 ≠ k := by
  simp [others]

theorem length_split (waiting : List (K × K)) (k : K) :
    (waitingFor waiting k).length + (others waiting k).length = waiting.length := by
  rw [waitingFor, others, length_map, ← countP_eq_length_filter, ← countP_eq_length_filter,
    length_eq_countP_add_countP fun e => e.1 = k]
  simp

variable (step : K → σ → σ)

/-- The queue is emptied, for at most `n` turns: the pairs that are left and the state. -/
def drain : ℕ → List K → List (K × K) → σ → List (K × K) × σ
  | 0, _, waiting, s => (waiting, s)
  | _ + 1, [], waiting, s => (waiting, s)
  | n + 1, k :: queue, waiting, s =>
    drain n (queue ++ waitingFor waiting k) (others waiting k) (step k s)

/-- **The invariant rule.** What each turn keeps holds at the end, with an empty queue, if
there is a turn for every element. -/
theorem drain_invariant (Inv : List K → List (K × K) → σ → Prop)
    (hstep : ∀ k queue waiting s, Inv (k :: queue) waiting s →
      Inv (queue ++ waitingFor waiting k) (others waiting k) (step k s))
    (n : ℕ) (queue : List K) (waiting : List (K × K)) (s : σ)
    (hlen : queue.length + waiting.length ≤ n) (h : Inv queue waiting s) :
    Inv [] (drain step n queue waiting s).1 (drain step n queue waiting s).2 := by
  induction n generalizing queue waiting s with
  | zero =>
    have hq : queue = [] := eq_nil_of_length_eq_zero (by omega)
    subst hq
    exact h
  | succ n ih =>
    cases queue with
    | nil => exact h
    | cons k queue =>
      have hsplit := length_split waiting k
      rw [length_cons] at hlen
      refine ih _ _ _ ?_ (hstep k queue waiting s h)
      rw [length_append]
      omega

/-! ## Elements that are put aside -/

/-- The rank of a queue and a set that waits, by their lengths: the sum counts first. -/
def rank (queue waiting : ℕ) : ℕ := (queue + waiting) * (queue + waiting + 1) + queue

/-- It falls when the sum does, and when the queue does and the sum does not grow. -/
theorem rank_lt {q w q' w' : ℕ} (h : q' + w' < q + w ∨ q' + w' ≤ q + w ∧ q' < q) :
    rank q' w' < rank q w := by
  unfold rank
  rcases h with hlt | ⟨hle, hq⟩
  · have hmul : (q' + w' + 1) * (q' + w' + 1) ≤ (q + w) * (q + w + 1) :=
      Nat.mul_le_mul (by omega) (by omega)
    rw [Nat.add_mul] at hmul
    omega
  · have hmul : (q' + w') * (q' + w' + 1) ≤ (q + w) * (q + w + 1) :=
      Nat.mul_le_mul hle (by omega)
    omega

variable {α : Type*}

/-- A queue and the elements that were put aside, each under a key. -/
structure Deferred (K α : Type*) where
  queue : List α
  waiting : AList fun _ : K => α

namespace Deferred

/-- An element is put aside. One that is there already stays. -/
def putAside (w : Deferred K α) (k : K) (a : α) : Deferred K α :=
  if k ∈ w.waiting then w else { w with waiting := w.waiting.insert k a }

/-- The element under a key goes back to the queue, if there is one. -/
def takeBack (w : Deferred K α) (k : K) : Deferred K α :=
  match w.waiting.lookup k with
  | none => w
  | some a => ⟨a :: w.queue, w.waiting.erase k⟩

/-- The elements under some keys go back to the queue. -/
def takeBackAll (w : Deferred K α) (ks : List K) : Deferred K α := ks.foldl takeBack w

/-- The number of elements. -/
def pending (w : Deferred K α) : ℕ := w.queue.length + w.waiting.keys.length

/-- Every element has a property. -/
def All (P : α → Prop) (w : Deferred K α) : Prop :=
  (∀ a ∈ w.queue, P a) ∧ ∀ k a, w.waiting.lookup k = some a → P a

variable {w : Deferred K α} {k : K} {a : α} {P : α → Prop}

theorem pending_takeBack : (w.takeBack k).pending = w.pending := by
  unfold takeBack
  split
  · rfl
  · next a hfound =>
    have hmem : k ∈ w.waiting.keys := mem_keys.mp (lookup_isSome.mp (by simp [hfound]))
    have hpos := length_pos_of_mem hmem
    simp only [pending, length_cons, keys_erase, length_erase_of_mem hmem]
    omega

theorem pending_takeBackAll (ks : List K) : (w.takeBackAll ks).pending = w.pending := by
  induction ks generalizing w with
  | nil => rfl
  | cons k ks ih => exact ih.trans pending_takeBack

/-- **What a turn does with an element that was taken**: it is put aside at most, and if not,
others may go back to the queue. -/
def Turned (w w' : Deferred K α) : Prop :=
  w'.pending ≤ w.pending ∨ w'.pending ≤ w.pending + 1 ∧ w'.queue = w.queue

namespace Turned

omit [DecidableEq K] in
theorem refl : w.Turned w := .inl (Nat.le_refl _)

theorem putAside : w.Turned (w.putAside k a) := by
  unfold Deferred.putAside
  split
  · exact refl
  · next hnew =>
    refine .inr ⟨?_, rfl⟩
    simp only [pending, keys_insert, length_cons]
    rw [erase_of_not_mem (mt mem_keys.mpr hnew)]
    omega

theorem takeBackAll (ks : List K) : w.Turned (w.takeBackAll ks) :=
  .inl (Nat.le_of_eq (pending_takeBackAll ks))

omit [DecidableEq K] in
/-- A turn lowers the rank, also where `n` elements come from elsewhere. -/
theorem rank_lt {w' : Deferred K α} (h : w.Turned w') {n q : ℕ} (hq : q = n + w.queue.length + 1) :
    rank (n + w'.queue.length) w'.waiting.keys.length < rank q w.waiting.keys.length := by
  refine Worklist.rank_lt ?_
  unfold Turned pending at h
  rcases h with hle | ⟨hle, hqueue⟩
  · omega
  · rw [hqueue] at hle ⊢
    omega

end Turned

theorem All.putAside (h : w.All P) (ha : P a) : (w.putAside k a).All P := by
  unfold Deferred.putAside
  split
  · exact h
  · refine ⟨h.1, fun j b hb => ?_⟩
    by_cases hj : j = k
    · rw [hj, lookup_insert] at hb
      cases hb
      exact ha
    · rw [lookup_insert_ne hj] at hb
      exact h.2 j b hb

theorem All.takeBack (h : w.All P) : (w.takeBack k).All P := by
  unfold Deferred.takeBack
  split
  · exact h
  · next a hfound =>
    refine ⟨forall_mem_cons.mpr ⟨h.2 k a hfound, h.1⟩, fun j b hb => ?_⟩
    by_cases hj : j = k
    · rw [hj, lookup_erase] at hb
      cases hb
    · rw [lookup_erase_ne hj] at hb
      exact h.2 j b hb

theorem All.takeBackAll (h : w.All P) (ks : List K) : (w.takeBackAll ks).All P :=
  foldlRecOn _ _ h fun _ hw _ _ => hw.takeBack

end Deferred

/-! ## The greatest element -/

variable (less : α → α → Bool)

/-- The greatest element of a list, and the others. -/
def popMax : List α → Option (α × List α)
  | [] => none
  | a :: l =>
    match popMax l with
    | none => some (a, [])
    | some (b, rest) => if less a b then some (b, a :: rest) else some (a, l)

variable {less}

theorem popMax_ne_none {l : List α} (h : l ≠ []) : popMax less l ≠ none := by
  cases l with
  | nil => exact absurd rfl h
  | cons a l =>
    unfold popMax
    split
    · simp
    · split <;> simp

/-- **The element and the others are the list again.** -/
theorem popMax_perm {l rest : List α} {a : α} (h : popMax less l = some (a, rest)) :
    l.Perm (a :: rest) := by
  induction l generalizing a rest with
  | nil => cases h
  | cons x l ih =>
    unfold popMax at h
    split at h
    · next hnone =>
      have hnil : l = [] := by
        by_contra hne
        exact popMax_ne_none hne hnone
      cases h
      rw [hnil]
    · next b others hsome =>
      split at h
      · cases h
        exact ((ih hsome).cons x).trans (.swap a x others)
      · cases h
        exact .refl _

end Worklist
