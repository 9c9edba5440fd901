import Mathlib.Data.List.Infix
import Passion.Common.Stateful

/-!
# Outcomes of computations that may fail

What a computation may return and with which errors it may stop, and the rules for sequences
and loops. A loop over the entries of a table checks and changes each entry on its own.
-/

namespace Except

variable {ε α β : Type*} {A : ε → Prop} {P : α → Prop} {Q : β → Prop}

/-- **The outcome**: it returns a value with the property, or stops with an error that is
allowed. -/
def Meets (A : ε → Prop) (P : α → Prop) : Except ε α → Prop
  | .ok a => P a
  | .error e => A e

/-- If it returns, it is with a value that has the property. -/
abbrev Ensures (x : Except ε α) (P : α → Prop) : Prop := x.Meets (fun _ => True) P

/-- It returns, with a value that has the property. -/
abbrev Yields (x : Except ε α) (P : α → Prop) : Prop := x.Meets (fun _ => False) P

theorem meets_true (x : Except ε α) : x.Meets (fun _ => True) fun _ => True := by
  cases x <;> trivial

variable {x : Except ε α}

theorem Meets.of_ok {a : α} (h : x.Meets A P) (hx : x = .ok a) : P a := by
  rw [hx] at h
  exact h

theorem Meets.of_error {e : ε} (h : x.Meets A P) (hx : x = .error e) : A e := by
  rw [hx] at h
  exact h

theorem Meets.bind {f : α → Except ε β} (hx : x.Meets A P) (hf : ∀ a, P a → (f a).Meets A Q) :
    (x.bind f).Meets A Q := by
  cases x with
  | error e => exact hx
  | ok a => exact hf a hx

theorem Meets.map {f : α → β} (hx : x.Meets A P) (hf : ∀ a, P a → Q (f a)) :
    (x.map f).Meets A Q := by
  cases x with
  | error e => exact hx
  | ok a => exact hf a hx

theorem Meets.mono {P' : α → Prop} (hx : x.Meets A P) (h : ∀ a, P a → P' a) : x.Meets A P' := by
  cases x with
  | error e => exact hx
  | ok a => exact h a hx

/-- More errors are allowed. -/
theorem Meets.weaken {A' : ε → Prop} (hx : x.Meets A P) (h : ∀ e, A e → A' e) : x.Meets A' P := by
  cases x with
  | error e => exact h e hx
  | ok a => exact hx

theorem ensures_iff : x.Ensures P ↔ ∀ a, x = .ok a → P a := by
  cases x with
  | error e => exact ⟨fun _ a h => (by cases h), fun _ => trivial⟩
  | ok a => exact ⟨fun h b hb => ok.inj hb ▸ h, fun h => h a rfl⟩

theorem yields_iff : x.Yields P ↔ ∃ a, x = .ok a ∧ P a := by
  cases x with
  | error e => exact ⟨False.elim, fun ⟨_, h, _⟩ => (by cases h)⟩
  | ok a => exact ⟨fun h => ⟨a, rfl, h⟩, fun ⟨_, h, hb⟩ => ok.inj h ▸ hb⟩

theorem Yields.meets (hx : x.Yields P) : x.Meets A P := by
  obtain ⟨a, rfl, ha⟩ := yields_iff.mp hx
  exact ha

/-- What holds if it returns is added to what is known. -/
theorem Meets.and_ensures {P' : α → Prop} (hx : x.Meets A P) (h : x.Ensures P') :
    x.Meets A fun a => P a ∧ P' a := by
  cases x with
  | error e => exact hx
  | ok a => exact ⟨hx, h⟩

/-- A loop that changes each entry of a table. -/
theorem Meets.mapM {ε α β : Type} {A : ε → Prop} {Q : β → Prop} {f : α → Except ε β} {l : List α}
    (h : ∀ a ∈ l, (f a).Meets A Q) : (l.mapM f).Meets A (fun l' => ∀ b ∈ l', Q b) := by
  induction l with
  | nil => exact fun b hb => absurd hb (by simp)
  | cons a l ih =>
    rw [List.mapM_cons]
    refine (h a (by simp)).bind fun b hb => ?_
    refine (ih fun a' ha' => h a' (by simp [ha'])).bind fun l' hl' => ?_
    intro b' hb'
    rcases List.mem_cons.mp hb' with rfl | hb'
    · exact hb
    · exact hl' b' hb'

/-- A loop with an invariant that says what it has done so far. -/
theorem Meets.foldlM {ε α σ : Type} {A : ε → Prop} {f : σ → α → Except ε σ} {l : List α} {s : σ}
    (Inv : List α → σ → Prop) (hinit : Inv [] s)
    (hstep : ∀ done a s, (∃ rest, l = done ++ a :: rest) → Inv done s →
      (f s a).Meets A (Inv (done ++ [a]))) : (l.foldlM f s).Meets A (Inv l) := by
  suffices h : ∀ done rest s, l = done ++ rest → Inv done s → (rest.foldlM f s).Meets A (Inv l) from
    h [] l s rfl hinit
  intro done rest
  induction rest generalizing done with
  | nil =>
    intro s hl hs
    rw [hl, List.append_nil]
    exact hs
  | cons a rest ih =>
    intro s hl hs
    exact (hstep done a s ⟨rest, hl⟩ hs).bind fun t ht => ih (done ++ [a]) t (by simp [hl]) ht

/-- A loop whose every turn stands in a relation that is reflexive and transitive. -/
theorem Ensures.foldlM_rel {ε α σ : Type} {f : σ → α → Except ε σ} (R : σ → σ → Prop)
    (hrefl : ∀ s, R s s) (htrans : ∀ {s t u}, R s t → R t u → R s u)
    (hstep : ∀ s a, (f s a).Ensures (R s)) (l : List α) (s : σ) : (l.foldlM f s).Ensures (R s) :=
  Meets.foldlM (fun _ => R s) (hrefl s) fun _ a t _ ht => (hstep t a).mono fun _ hu => htrans ht hu

end Except

/-- **The rule of machines that halt.** Where each step from a state with the invariant stops as
allowed or keeps the invariant and lowers the measure, and a state of measure zero is done, the
machine ends with the invariant or stops as allowed: it does not run out of turns. -/
theorem Machine.run_meets {ε σ : Type} {step : σ → Except ε σ} {done : σ → Bool} {exhausted : ε}
    {A : ε → Prop} (Inv : σ → Prop) (measure : σ → ℕ) (hends : ∀ s, measure s = 0 → done s = true)
    (hstep : ∀ s, Inv s → (step s).Meets A fun t => Inv t ∧ measure t < measure s)
    {n : ℕ} {s : σ} (hs : Inv s) (hn : measure s ≤ n) :
    (run step done exhausted n s).Meets A Inv := by
  induction n generalizing s with
  | zero =>
    rw [run_of_done (hends s (by omega))]
    exact hs
  | succ n ih =>
    cases hdone : done s with
    | true =>
      rw [run_of_done hdone]
      exact hs
    | false =>
      rw [run_succ_of_not_done hdone]
      exact (hstep s hs).bind fun t ⟨ht, hlt⟩ => ih ht (by omega)

/-! ## Runs of a step that may fail

A step takes an action in a state and returns the next state or stops. A list of actions gives a
run, which is as long as its steps return. Where one step keeps a property exactly under a condition
on the action and the state it finds, the property holds all along a run exactly if every action of
the run meets the condition.
-/

namespace Run

open List

variable {ε σ α : Type} (f : σ → α → Except ε σ) (init : σ)

/-- The state after a list of actions. -/
def after (l : List α) : Except ε σ := l.foldlM f init

/-- A property holds in every state of a run, the first and the last among them. -/
def Always (P : σ → Prop) (l : List α) : Prop :=
  ∀ pre, pre <+: l → ∀ s, after f init pre = .ok s → P s

/-- Every action of a run that returns meets a condition in the state it finds. -/
def EachStep (C : σ → α → Prop) (l : List α) : Prop :=
  ∀ pre a post s t, l = pre ++ a :: post → after f init pre = .ok s → f s a = .ok t → C s a

/-- Every action of a list meets a condition in the state it finds, also one that fails. -/
def EachAction (C : σ → α → Prop) (l : List α) : Prop :=
  ∀ pre a post s, l = pre ++ a :: post → after f init pre = .ok s → C s a

variable {f init} {P : σ → Prop} {C : σ → α → Prop} {l : List α} {a : α} {s t : σ}

theorem after_concat :
    after f init (l ++ [a]) = .ok t ↔ ∃ s, after f init l = .ok s ∧ f s a = .ok t := by
  simp only [after, foldlM_append, foldlM_cons, foldlM_nil, bind_pure]
  exact Except.bind_eq_ok

theorem eachAction_nil : EachAction f init C [] :=
  fun pre a post _ h => by simp at h

theorem EachAction.eachStep (h : EachAction f init C l) : EachStep f init C l :=
  fun pre a post s _ hl hpre _ => h pre a post s hl hpre

/-- A condition is met at every place of a list. -/
theorem EachAction.of_get
    (h : ∀ k : Fin l.length, ∀ s ∈ (after f init (l.take k)).toOption, C s (l.get k)) :
    EachAction f init C l := by
  intro pre a post s hl hpre
  have hk : pre.length < l.length := by simp [hl]
  have hmeets := h ⟨pre.length, hk⟩ s (by simp [hl, hpre, Except.toOption])
  simpa [hl] using hmeets

/-- The first action meets the condition, and so do the others then. -/
theorem EachAction.cons (ha : C init a) (hl : ∀ s, f init a = .ok s → EachAction f s C l) :
    EachAction f init C (a :: l) := by
  intro pre b post s hsplit hpre
  cases pre with
  | nil =>
    obtain ⟨rfl, -⟩ := cons.inj hsplit
    cases hpre
    exact ha
  | cons c pre =>
    obtain ⟨rfl, htail⟩ := cons.inj hsplit
    obtain ⟨t, ht, hs⟩ := Except.bind_eq_ok.mp hpre
    exact hl t ht pre b post s htail hs

/-- A run whose every action meets an outcome from a state with an invariant, and keeps it. -/
theorem meets_after {A : ε → Prop} (Inv : σ → Prop) (hinit : Inv init)
    (hstep : ∀ pre a post s, l = pre ++ a :: post → after f init pre = .ok s → Inv s →
      (f s a).Meets A Inv) : (after f init l).Meets A Inv := by
  have hloop := Except.Meets.foldlM (f := f) (l := l)
    (fun done s => after f init done = .ok s ∧ Inv s) ⟨rfl, hinit⟩ fun done a s ⟨rest, hl⟩ hs => by
      cases ha : f s a with
      | error e => exact (hstep done a rest s hl hs.1 hs.2).of_error ha
      | ok t => exact ⟨after_concat.mpr ⟨s, hs.1, ha⟩, (hstep done a rest s hl hs.1 hs.2).of_ok ha⟩
  exact hloop.mono fun s hs => hs.2

/-- What one action keeps holds after a run. -/
theorem invariant (hinit : P init)
    (hstep : ∀ pre a post s t, l = pre ++ a :: post → after f init pre = .ok s → f s a = .ok t →
      P s → P t) (h : after f init l = .ok s) : P s := by
  refine Except.ensures_iff.mp (meets_after P hinit fun pre a post s hl hs hP => ?_) s h
  exact Except.ensures_iff.mpr fun t ht => hstep pre a post s t hl hs ht hP

/-- A run whose every action returns from a state with an invariant, and keeps it, returns. -/
theorem exists_after (Inv : σ → Prop) (hinit : Inv init)
    (hstep : ∀ pre a post s, l = pre ++ a :: post → after f init pre = .ok s → Inv s →
      ∃ t, f s a = .ok t ∧ Inv t) : ∃ s, after f init l = .ok s ∧ Inv s := by
  refine Except.yields_iff.mp (meets_after Inv hinit fun pre a post s hl hs hInv => ?_)
  exact Except.yields_iff.mpr (hstep pre a post s hl hs hInv)

/-- **A property of whole runs from one step**, with an invariant that says more: where a step
from a state with the invariant reaches the property only under a condition, and under the
condition keeps the invariant. -/
theorem always_iff_of_invariant (Inv : σ → Prop) (hinit : Inv init) (hP : ∀ s, Inv s → P s)
    (hstep : ∀ pre a post s t, l = pre ++ a :: post → after f init pre = .ok s → f s a = .ok t →
      Inv s → (P t → C s a) ∧ (C s a → Inv t)) : Always f init P l ↔ EachStep f init C l := by
  constructor
  · intro halways pre a post s t hl hpre ha
    have hinv : Inv s := by
      refine invariant hinit ?_ hpre
      intro before b rest u v hbefore hu hb hInv
      have hl' : l = before ++ b :: (rest ++ a :: post) := by simp [hl, hbefore]
      obtain ⟨hneeds, hkeeps⟩ := hstep before b _ u v hl' hu hb hInv
      exact hkeeps (hneeds (halways (before ++ [b]) ⟨rest ++ a :: post, by simp [hl']⟩ v
        (after_concat.mpr ⟨u, hu, hb⟩)))
    exact (hstep pre a post s t hl hpre ha hinv).1
      (halways (pre ++ [a]) ⟨post, by simp [hl]⟩ t (after_concat.mpr ⟨s, hpre, ha⟩))
  · rintro heach pre ⟨rest, hl⟩ s hs
    refine hP s (invariant hinit ?_ hs)
    intro before a post s t hpre hbefore ha hInv
    have hl' : l = before ++ a :: (post ++ rest) := by simp [← hl, hpre]
    exact (hstep before a _ s t hl' hbefore ha hInv).2 (heach before a _ s t hl' hbefore ha)

/-- The same for a property that is its own invariant. -/
theorem always_iff_eachStep (hinit : P init)
    (hstep : ∀ pre a post s t, l = pre ++ a :: post → after f init pre = .ok s → f s a = .ok t →
      P s → (P t ↔ C s a)) : Always f init P l ↔ EachStep f init C l :=
  always_iff_of_invariant P hinit (fun _ h => h)
    fun pre a post s t hl hpre ha hP => ⟨(hstep pre a post s t hl hpre ha hP).mp,
      (hstep pre a post s t hl hpre ha hP).mpr⟩

/-- **A property of every step of a run that cannot fail.** Where an invariant makes what a step
does equivalent to a condition on the state it finds, and is kept by steps that do it, all
steps of a run do it exactly if all of them meet the condition. -/
theorem forall_step_iff {g : σ → α → σ} {Inv : σ → Prop} {D : σ → α → Prop} (hinit : Inv init)
    (hiff : ∀ s a, Inv s → (D s a ↔ C s a)) (hkeep : ∀ s a, Inv s → D s a → Inv (g s a)) :
    (∀ pre a post, l = pre ++ a :: post → D (pre.foldl g init) a) ↔
      ∀ pre a post, l = pre ++ a :: post → C (pre.foldl g init) a := by
  have hinv : ∀ Q : σ → α → Prop, (∀ s a, Inv s → Q s a → D s a) →
      (∀ pre a post, l = pre ++ a :: post → Q (pre.foldl g init) a) →
        ∀ pre post, l = pre ++ post → Inv (pre.foldl g init) := by
    intro Q hQ hall pre
    induction pre using reverseRecOn with
    | nil => exact fun _ _ => hinit
    | append_singleton pre b ih =>
      intro post hl
      have hl' : l = pre ++ b :: post := by simpa using hl
      have hpre := ih (b :: post) hl'
      rw [foldl_append]
      exact hkeep _ b hpre (hQ _ b hpre (hall pre b post hl'))
  constructor
  · intro h pre a post hl
    exact (hiff _ a (hinv D (fun _ _ _ hD => hD) h pre _ hl)).mp (h pre a post hl)
  · intro h pre a post hl
    exact (hiff _ a (hinv C (fun s a hs => (hiff s a hs).mpr) h pre _ hl)).mpr (h pre a post hl)

end Run
