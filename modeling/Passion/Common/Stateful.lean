import Mathlib.Data.List.AList

/-!
# Stateful computations that may fail

Computations over a state that return a value or stop with an error: how a successful
sequence of them comes apart, loops over a list, and relations between computations over two
state types: one follows the successes of the other, or cannot see them.
-/

/-! ## Results -/

instance Option.decidableIsSome {α : Type*} {o : Option α} : Decidable (∃ a, o = some a) :=
  decidable_of_iff _ Option.isSome_iff_exists

/-- What holds of all entries of a map can be evaluated. -/
instance AList.decidableForallLookup {α β : Type*} [DecidableEq α] {m : AList fun _ : α => β}
    {P : α → β → Prop} [∀ k b, Decidable (P k b)] : Decidable (∀ k b, m.lookup k = some b → P k b) :=
  decidable_of_iff (∀ e ∈ m.entries, P e.1 e.2)
    ⟨fun h k b hk => h ⟨k, b⟩ (AList.mem_lookup_iff.mp hk),
      fun h e he => h e.1 e.2 (AList.mem_lookup_iff.mpr he)⟩

namespace Except

variable {ε α β : Type*} {x : Except ε α}

/-- What a computation returns can be evaluated. -/
instance decidableExistsOk {P : α → Prop} [DecidablePred P] : Decidable (∃ a, x = .ok a ∧ P a) :=
  decidable_of_iff (∃ a ∈ x.toOption, P a) (by cases x <;> simp [Except.toOption])

instance decidableIsOk : Decidable (∃ a, x = .ok a) :=
  decidable_of_iff (∃ a, x = .ok a ∧ True) (by simp)

theorem map_eq_ok {f : α → β} {b : β} : x.map f = .ok b ↔ ∃ a, x = .ok a ∧ f a = b := by
  cases x with
  | error e => simp [Except.map]
  | ok a => simp [Except.map]

theorem ok_bind (a : α) (f : α → Except ε β) : (Except.ok a).bind f = f a := rfl

theorem bind_bind {γ : Type*} (x : Except ε α) (f : α → Except ε β) (g : β → Except ε γ) :
    (x.bind f).bind g = x.bind fun a => (f a).bind g := by
  cases x <;> rfl

theorem bind_eq_ok {f : α → Except ε β} {b : β} :
    x.bind f = .ok b ↔ ∃ a, x = .ok a ∧ f a = .ok b := by
  cases x with
  | error e => simp [Except.bind]
  | ok a => simp [Except.bind]

/-- A check in front of a result. -/
theorem guard_eq_ok {c : Prop} [Decidable c] {e : ε} {a : α} :
    (if c then .error e else x) = .ok a ↔ ¬ c ∧ x = .ok a := by
  by_cases h : c
  · simp [h]
  · simp [h]

theorem mapError_eq_ok {ε' : Type*} {f : ε → ε'} {a : α} : x.mapError f = .ok a ↔ x = .ok a := by
  cases x with
  | error e => simp [Except.mapError]
  | ok b => simp [Except.mapError]

/-- A loop of checks succeeds exactly if every check does. -/
theorem forM_eq_ok {ε α : Type} {f : α → Except ε PUnit} {l : List α} :
    l.forM f = .ok ⟨⟩ ↔ ∀ a ∈ l, f a = .ok ⟨⟩ := by
  induction l with
  | nil => exact ⟨fun _ a ha => absurd ha (by simp), fun _ => rfl⟩
  | cons a l ih =>
    rw [List.forall_mem_cons, ← ih, List.forM]
    cases hf : f a with
    | error e => simp [bind, Except.bind]
    | ok u => simp [bind, Except.bind]

end Except

/-- A computation over the state `σ` that may stop with an error. -/
abbrev Stateful (ε σ : Type) := StateT σ (Except ε)

namespace Stateful

variable {ε σ τ α β γ : Type} {l : List γ}

/-- Stops with an error. -/
def fail (e : ε) : Stateful ε σ α := fun _ => .error e

/-- A result that does not look at the state. -/
def ofResult (x : Except ε α) : Stateful ε σ α := fun s =>
  match x with
  | .ok a => .ok (a, s)
  | .error e => .error e

@[simp] theorem run_fail (e : ε) (s : σ) : (fail e : Stateful ε σ α).run s = .error e := rfl

variable {f : α → Stateful ε σ β} {s : σ} {R : σ → τ → Prop} {m : Stateful ε σ α}

/-- A successful sequence: the first part succeeds and the second one from where it ended. -/
theorem run_bind_eq_ok {r : β × σ} :
    (m >>= f).run s = .ok r ↔ ∃ a s', m.run s = .ok (a, s') ∧ (f a).run s' = .ok r := by
  rw [StateT.run_bind]
  cases h : m.run s with
  | error e => simp [bind, Except.bind]
  | ok p =>
    obtain ⟨a, s'⟩ := p
    simp only [Except.ok.injEq, Prod.mk.injEq]
    constructor
    · intro hf
      exact ⟨a, s', ⟨rfl, rfl⟩, hf⟩
    · rintro ⟨_, _, ⟨rfl, rfl⟩, hf⟩
      exact hf

theorem run_bind_of_ok {s s' : σ} {a : α} (h : m.run s = .ok (a, s')) :
    (m >>= f).run s = (f a).run s' := by
  rw [StateT.run_bind, h]
  rfl

theorem run_ofResult_eq_ok {x : Except ε α} {r : α × σ} :
    (ofResult x : Stateful ε σ α).run s = .ok r ↔ x = .ok r.1 ∧ r.2 = s := by
  obtain ⟨a, s'⟩ := r
  cases x with
  | error e => simp [StateT.run, ofResult]
  | ok b => simp [StateT.run, ofResult, eq_comm]

theorem run_ofResult_bind {x : Except ε α} {r : β × σ} :
    (ofResult x >>= f).run s = .ok r ↔ ∃ a, x = .ok a ∧ (f a).run s = .ok r := by
  rw [run_bind_eq_ok]
  constructor
  · rintro ⟨a, s', hrun, hf⟩
    obtain ⟨hx, rfl⟩ := run_ofResult_eq_ok.mp hrun
    exact ⟨a, hx, hf⟩
  · rintro ⟨a, hx, hf⟩
    exact ⟨a, s, run_ofResult_eq_ok.mpr ⟨hx, rfl⟩, hf⟩

/-- A check in front of a computation. -/
theorem run_guard_eq_ok {c : Prop} [Decidable c] {e : ε} {r : α × σ} :
    (if c then fail e else m).run s = .ok r ↔ ¬ c ∧ m.run s = .ok r := by
  by_cases h : c
  · simp [h]
  · simp [h]

/-! ## Loops over a list -/

/-- Runs `f` on every element and collects the values. -/
def collect (f : α → Stateful ε σ β) : List α → Stateful ε σ (List β)
  | [] => pure []
  | a :: as => do
    let b ← f a
    let bs ← collect f as
    pure (b :: bs)

/-- Runs `f` on every element. -/
def forEach (f : α → Stateful ε σ Unit) : List α → Stateful ε σ Unit
  | [] => pure ()
  | a :: as => do
    f a
    forEach f as

/-- Runs `f` along the list, handing a value on. -/
def fold (f : β → α → Stateful ε σ β) : β → List α → Stateful ε σ β
  | b, [] => pure b
  | b, a :: as => do
    let b' ← f b a
    fold f b' as

/-- Asks every element in turn, up to the first that says no. -/
def all (p : α → Stateful ε σ Bool) : List α → Stateful ε σ Bool
  | [] => pure true
  | a :: as => do
    if ← p a then all p as else pure false

/-! ## Successes that are followed -/

/-- **Every success of `m` is followed by one of `n`**, with the same value, and the states
stay related. -/
def Follows (R : σ → τ → Prop) (m : Stateful ε σ α) (n : Stateful ε τ α) : Prop :=
  ∀ s t a s', R s t → m.run s = .ok (a, s') → ∃ t', n.run t = .ok (a, t') ∧ R s' t'

namespace Follows

variable {n : Stateful ε τ α}

/-- Two operations that always succeed. -/
theorem of_fun {f : σ → α × σ} {g : τ → α × τ}
    (h : ∀ s t, R s t → (f s).1 = (g t).1 ∧ R (f s).2 (g t).2) :
    Follows R ((fun s => .ok (f s)) : Stateful ε σ α) (fun t => .ok (g t)) := by
  intro s t a s' hst hm
  have hf : f s = (a, s') := Except.ok.inj hm
  obtain ⟨hval, hst'⟩ := h s t hst
  rw [hf] at hval hst'
  exact ⟨(g t).2, congrArg Except.ok (Prod.ext hval.symm rfl), hst'⟩

theorem pure (a : α) : Follows R (Pure.pure a : Stateful ε σ α) (Pure.pure a) := by
  intro s t b s' hst hm
  cases hm
  exact ⟨t, rfl, hst⟩

theorem ofResult (x : Except ε α) :
    Follows R (Stateful.ofResult x : Stateful ε σ α) (Stateful.ofResult x) := by
  intro s t b s' hst hm
  obtain ⟨hx, rfl⟩ := run_ofResult_eq_ok.mp hm
  exact ⟨t, run_ofResult_eq_ok.mpr ⟨hx, rfl⟩, hst⟩

theorem bind {f : α → Stateful ε σ β} {g : α → Stateful ε τ β} (h : Follows R m n)
    (hf : ∀ a, Follows R (f a) (g a)) : Follows R (m >>= f) (n >>= g) := by
  intro s t b s'' hst hm
  obtain ⟨a, s', hm, hfa⟩ := run_bind_eq_ok.mp hm
  obtain ⟨t', hn, hst'⟩ := h s t a s' hst hm
  obtain ⟨t'', hga, hst''⟩ := hf a s' t' b s'' hst' hfa
  exact ⟨t'', run_bind_eq_ok.mpr ⟨a, t', hn, hga⟩, hst''⟩

theorem ite {c : Prop} [Decidable c] {m' : Stateful ε σ α} {n' : Stateful ε τ α}
    (h : c → Follows R m n) (h' : ¬ c → Follows R m' n') :
    Follows R (if c then m else m') (if c then n else n') := by
  by_cases hc : c
  · rw [if_pos hc, if_pos hc]; exact h hc
  · rw [if_neg hc, if_neg hc]; exact h' hc

theorem collect {f : γ → Stateful ε σ β} {g : γ → Stateful ε τ β}
    (h : ∀ a ∈ l, Follows R (f a) (g a)) :
    Follows R (Stateful.collect f l) (Stateful.collect g l) := by
  induction l with
  | nil => exact pure []
  | cons a l ih =>
    refine (h a (List.mem_cons_self ..)).bind fun b => ?_
    exact (ih fun x hx => h x (List.mem_cons_of_mem _ hx)).bind fun bs => pure (b :: bs)

theorem forEach {f : γ → Stateful ε σ Unit} {g : γ → Stateful ε τ Unit}
    (h : ∀ a ∈ l, Follows R (f a) (g a)) :
    Follows R (Stateful.forEach f l) (Stateful.forEach g l) := by
  induction l with
  | nil => exact pure ()
  | cons a l ih =>
    exact (h a (List.mem_cons_self ..)).bind fun _ =>
      ih fun x hx => h x (List.mem_cons_of_mem _ hx)

theorem fold {f : β → γ → Stateful ε σ β} {g : β → γ → Stateful ε τ β}
    (h : ∀ b, ∀ a ∈ l, Follows R (f b a) (g b a)) (b : β) :
    Follows R (Stateful.fold f b l) (Stateful.fold g b l) := by
  induction l generalizing b with
  | nil => exact pure b
  | cons a l ih =>
    exact (h b a (List.mem_cons_self ..)).bind fun b' =>
      ih (fun b x hx => h b x (List.mem_cons_of_mem _ hx)) b'

end Follows

/-- **A success of `m` cannot be seen** from a state related to where it began: that state
is related to where it ends. -/
def Skips (R : σ → τ → Prop) (m : Stateful ε σ α) : Prop :=
  ∀ s t a s', R s t → m.run s = .ok (a, s') → R s' t

namespace Skips

/-- An operation that always succeeds. -/
theorem of_fun {f : σ → α × σ} (h : ∀ s t, R s t → R (f s).2 t) :
    Skips R ((fun s => .ok (f s)) : Stateful ε σ α) := by
  intro s t a s' hst hm
  have hf : f s = (a, s') := Except.ok.inj hm
  have hst' := h s t hst
  rw [hf] at hst'
  exact hst'

theorem pure (a : α) : Skips R (Pure.pure a : Stateful ε σ α) := by
  intro s t b s' hst hm
  cases hm
  exact hst

theorem fail (e : ε) : Skips R (Stateful.fail e : Stateful ε σ α) := by
  intro s t b s' _ hm
  cases hm

theorem ofResult (x : Except ε α) : Skips R (Stateful.ofResult x : Stateful ε σ α) := by
  intro s t b s' hst hm
  obtain ⟨-, rfl⟩ := run_ofResult_eq_ok.mp hm
  exact hst

theorem bind {f : α → Stateful ε σ β} (h : Skips R m) (hf : ∀ a, Skips R (f a)) :
    Skips R (m >>= f) := by
  intro s t b s'' hst hm
  obtain ⟨a, s', hm, hfa⟩ := run_bind_eq_ok.mp hm
  exact hf a s' t b s'' (h s t a s' hst hm) hfa

theorem ite {c : Prop} [Decidable c] {m' : Stateful ε σ α} (h : c → Skips R m)
    (h' : ¬ c → Skips R m') : Skips R (if c then m else m') := by
  by_cases hc : c
  · rw [if_pos hc]; exact h hc
  · rw [if_neg hc]; exact h' hc

theorem collect {f : γ → Stateful ε σ β} (h : ∀ a ∈ l, Skips R (f a)) :
    Skips R (Stateful.collect f l) := by
  induction l with
  | nil => exact pure []
  | cons a l ih =>
    refine (h a (List.mem_cons_self ..)).bind fun b => ?_
    exact (ih fun x hx => h x (List.mem_cons_of_mem _ hx)).bind fun bs => pure (b :: bs)

theorem fold {f : β → γ → Stateful ε σ β}
    (h : ∀ b, ∀ a ∈ l, Skips R (f b a)) (b : β) : Skips R (Stateful.fold f b l) := by
  induction l generalizing b with
  | nil => exact pure b
  | cons a l ih =>
    exact (h b a (List.mem_cons_self ..)).bind fun b' =>
      ih (fun b x hx => h b x (List.mem_cons_of_mem _ hx)) b'

theorem all {p : γ → Stateful ε σ Bool} (h : ∀ a ∈ l, Skips R (p a)) :
    Skips R (Stateful.all p l) := by
  induction l with
  | nil => exact pure true
  | cons a l ih =>
    refine (h a (List.mem_cons_self ..)).bind fun b =>
      ite (fun _ => ?_) fun _ => pure false
    exact ih fun x hx => h x (List.mem_cons_of_mem _ hx)

end Skips

end Stateful

/-! ## Machines that halt

Postconditions of computations that may fail, and machines made of them. A step returns the next
state or stops with an error, and a machine repeats it until a test says that it is done. Where
every step lowers a measure the measure is fuel enough. The cost of a run adds up what its steps
cost, the one it stops at included.
-/

namespace Except

variable {ε α β : Type*}

/-- **A postcondition**: what a computation returns, if it does, has the property. -/
def Post (x : Except ε α) (P : α → Prop) : Prop := ∀ a, x = .ok a → P a

variable {x : Except ε α} {P : α → Prop} {R : β → Prop}

theorem Post.error {e : ε} : (Except.error e : Except ε α).Post P := fun _ h => by cases h

theorem Post.ok {a : α} (h : P a) : (Except.ok a : Except ε α).Post P := fun b hb => by
  cases hb
  exact h

theorem Post.ite {c : Prop} [Decidable c] {y : Except ε α} (hx : c → x.Post P)
    (hy : ¬ c → y.Post P) : (if c then x else y).Post P := by
  by_cases hc : c
  · rw [if_pos hc]
    exact hx hc
  · rw [if_neg hc]
    exact hy hc

theorem Post.map {f : α → β} (h : x.Post fun a => R (f a)) : (x.map f).Post R := by
  intro b hb
  obtain ⟨a, ha, rfl⟩ := map_eq_ok.mp hb
  exact h a ha

theorem Post.bind {f : α → Except ε β} (hx : x.Post P) (hf : ∀ a, P a → (f a).Post R) :
    (x.bind f).Post R := by
  intro b hb
  obtain ⟨a, ha, hb⟩ := bind_eq_ok.mp hb
  exact hf a (hx a ha) b hb

theorem Post.of_forall (h : ∀ a, P a) : x.Post P := fun a _ => h a

end Except

namespace Machine

variable {ε σ : Type*} (step : σ → Except ε σ) (done : σ → Bool) (exhausted : ε)

/-- The machine runs, for at most `n` steps. -/
def run : ℕ → σ → Except ε σ
  | 0, s => if done s then .ok s else .error exhausted
  | n + 1, s => if done s then .ok s else (step s).bind (run n)

/-- The cost of a run. -/
def cost (w : σ → ℕ) : ℕ → σ → ℕ
  | 0, _ => 0
  | n + 1, s =>
    if done s then 0
    else w s + match step s with
      | .error _ => 0
      | .ok t => cost w n t

/-- **Every step lowers the measure**, and a state of measure zero is done. -/
structure Halts (measure : σ → ℕ) : Prop where
  lowers : ∀ s t, step s = .ok t → measure t < measure s
  ends : ∀ s, measure s = 0 → done s = true

variable {step done exhausted} {measure : σ → ℕ} {n m : ℕ} {s t : σ}

theorem run_of_done (h : done s = true) : run step done exhausted n s = .ok s := by
  cases n with
  | zero => exact if_pos h
  | succ n => exact if_pos h

theorem run_succ_of_not_done (h : done s = false) :
    run step done exhausted (n + 1) s = (step s).bind (run step done exhausted n) := by
  rw [run, if_neg (by simp [h])]

/-- **Fuel beyond the measure makes no difference.** -/
theorem Halts.run_eq_run (hh : Halts step done measure) (hn : measure s ≤ n) (hm : measure s ≤ m) :
    run step done exhausted n s = run step done exhausted m s := by
  induction n generalizing m s with
  | zero =>
    have hdone : done s = true := hh.ends s (by omega)
    rw [run_of_done hdone, run_of_done hdone]
  | succ n ih =>
    cases hdone : done s with
    | true => rw [run_of_done hdone, run_of_done hdone]
    | false =>
      have hpos : measure s ≠ 0 := fun hzero => by
        rw [hh.ends s hzero] at hdone
        cases hdone
      obtain ⟨m, rfl⟩ : ∃ m', m = m' + 1 := ⟨m - 1, by omega⟩
      rw [run_succ_of_not_done hdone, run_succ_of_not_done hdone]
      cases hstep : step s with
      | error e => rfl
      | ok t =>
        have hlt := hh.lowers s t hstep
        exact ih (by omega) (by omega)

/-- **A run that is not done takes a step.** -/
theorem Halts.run_eq_ok_iff (hh : Halts step done measure) (hdone : done s = false) :
    run step done exhausted (measure s) s = .ok t ↔
      ∃ s', step s = .ok s' ∧ run step done exhausted (measure s') s' = .ok t := by
  have hpos : measure s ≠ 0 := fun hzero => by
    rw [hh.ends s hzero] at hdone
    cases hdone
  obtain ⟨n, hn⟩ : ∃ n, measure s = n + 1 := ⟨measure s - 1, by omega⟩
  rw [hn, run_succ_of_not_done hdone, Except.bind_eq_ok]
  refine exists_congr fun s' => and_congr_right fun hstep => ?_
  have hlt := hh.lowers s s' hstep
  rw [hh.run_eq_run (by omega) (Nat.le_refl _)]

end Machine

/-! ## Computations whose effects outlive their failure -/

/-- A computation that returns a value or an error, with the state it leaves. -/
abbrev Persistent (ε σ : Type) := ExceptT ε (StateM σ)

namespace Persistent

variable {ε σ α β : Type}

/-- The outcome from a state, and the state that is left. -/
def exec (m : Persistent ε σ α) (s : σ) : Except ε α × σ := m s

/-- The state. -/
def state : Persistent ε σ σ := fun s => (.ok s, s)

/-- Replaces the state. -/
def setState (s : σ) : Persistent ε σ Unit := fun _ => (.ok (), s)

/-- A result that does not look at the state. -/
def ofResult (x : Except ε α) : Persistent ε σ α := fun s => (x, s)

variable {m : Persistent ε σ α} {f : α → Persistent ε σ β} {g : σ → Persistent ε σ β}
variable {x : Except ε α} {s s' : σ} {a : α} {b : β}

theorem exec_state_bind : exec (state >>= g) s = exec (g s) s := rfl

theorem exec_setState_bind {f : Unit → Persistent ε σ β} :
    exec (setState s' >>= f) s = exec (f ()) s' := rfl

theorem exec_pure_eq_ok {b : α} :
    exec (pure a : Persistent ε σ α) s = (.ok b, s') ↔ a = b ∧ s = s' := by
  change (Except.ok a, s) = (Except.ok b, s') ↔ _
  rw [Prod.mk.injEq, Except.ok.injEq]

theorem exec_bind_of_ok (h : exec m s = (.ok a, s')) : exec (m >>= f) s = exec (f a) s' := by
  change (ExceptT.bindCont f (m s).1) (m s).2 = _
  rw [show m s = (.ok a, s') from h]
  rfl

theorem exec_bind_of_error {e : ε} (h : exec m s = (.error e, s')) :
    exec (m >>= f) s = (.error e, s') := by
  change (ExceptT.bindCont f (m s).1) (m s).2 = _
  rw [show m s = (.error e, s') from h]
  rfl

/-- An outcome that is known, with the state that is left. -/
theorem exec_eq_of_fst (h : (exec m s).1 = x) : exec m s = (x, (exec m s).2) :=
  Prod.ext h rfl

/-- A successful sequence: the first part succeeds and the second one from where it ended. -/
theorem exec_bind_eq_ok {s'' : σ} : exec (m >>= f) s = (.ok b, s'') ↔
      ∃ a s', exec m s = (.ok a, s') ∧ exec (f a) s' = (.ok b, s'') := by
  rcases hm : exec m s with ⟨r, s'⟩
  cases r with
  | error e =>
    rw [exec_bind_of_error hm]
    constructor
    · intro h
      cases h
    · rintro ⟨a, t, h, -⟩
      cases h
  | ok a =>
    rw [exec_bind_of_ok hm]
    constructor
    · intro h
      exact ⟨a, s', rfl, h⟩
    · rintro ⟨a', t, h, hf⟩
      cases h
      exact hf

theorem exec_ofResult_bind :
    exec (ofResult x >>= f) s = (.ok b, s') ↔ ∃ a, x = .ok a ∧ exec (f a) s = (.ok b, s') := by
  rw [exec_bind_eq_ok]
  constructor
  · rintro ⟨a, t, h, hf⟩
    cases h
    exact ⟨a, rfl, hf⟩
  · rintro ⟨a, rfl, hf⟩
    exact ⟨a, s, rfl, hf⟩

/-! ## What a computation leaves -/

/-- **From `s` the computation leaves** a value and a state with `Q` if it succeeds, and a state
with `R` if it fails. -/
def Leaves (m : Persistent ε σ α) (s : σ) (Q : α → σ → Prop) (R : σ → Prop) : Prop :=
  match exec m s with
  | (.ok a, s') => Q a s'
  | (.error _, s') => R s'

variable {P : β → σ → Prop} {Q : α → σ → Prop} {R : σ → Prop}

theorem leaves_pure : Leaves (pure a : Persistent ε σ α) s Q R ↔ Q a s := Iff.rfl

theorem leaves_ofResult (hok : ∀ a, x = .ok a → Q a s) (herror : R s) :
    Leaves (ofResult x) s Q R := by
  cases x with
  | ok a => exact hok a rfl
  | error e => exact herror

/-- One computation after the other. -/
theorem Leaves.bind (hm : Leaves m s Q R)
    (hf : ∀ a s', Q a s' → Leaves (f a) s' P R) : Leaves (m >>= f) s P R := by
  unfold Leaves at hm
  rcases hexec : exec m s with ⟨_ | a, s'⟩
  · simp only [hexec] at hm
    unfold Leaves
    rwa [exec_bind_of_error hexec]
  · simp only [hexec] at hm
    unfold Leaves
    rw [exec_bind_of_ok hexec]
    exact hf a s' hm

theorem leaves_state_bind : Leaves (state >>= g) s P R ↔ Leaves (g s) s P R := Iff.rfl

theorem leaves_ofResult_bind (hok : ∀ a, x = .ok a → Leaves (f a) s P R) (herror : R s) :
    Leaves (ofResult x >>= f) s P R := by
  cases x with
  | ok a => exact hok a rfl
  | error e => exact herror

theorem Leaves.mono {Q' : α → σ → Prop} (hm : Leaves m s Q R) (hQ : ∀ a s', Q a s' → Q' a s') :
    Leaves m s Q' R := by
  unfold Leaves at hm ⊢
  rcases hexec : exec m s with ⟨_ | a, s'⟩
  · simpa only [hexec] using hm
  · simp only [hexec] at hm ⊢
    exact hQ a s' hm

/-- What holds either way holds of the state that is left. -/
theorem Leaves.snd (hm : Leaves m s Q R) (hQ : ∀ a s', Q a s' → R s') : R (exec m s).2 := by
  unfold Leaves at hm
  rcases hexec : exec m s with ⟨_ | a, s'⟩
  · simpa only [hexec] using hm
  · simp only [hexec] at hm
    exact hQ a s' hm

/-- **The computation keeps a property**, whether it succeeds or fails. -/
def Keeps (P : σ → Prop) (m : Persistent ε σ α) : Prop := ∀ s, P s → P (exec m s).2

namespace Keeps

variable {P : σ → Prop}

theorem pure (a : α) : Keeps P (Pure.pure a : Persistent ε σ α) := fun _ h => h

theorem bind (hm : Keeps P m) (hf : ∀ a, Keeps P (f a)) : Keeps P (m >>= f) := by
  intro s hs
  have hnext : P (exec m s).2 := hm s hs
  rcases hexec : exec m s with ⟨_ | a, s'⟩
  · rw [exec_bind_of_error hexec]
    rwa [hexec] at hnext
  · rw [exec_bind_of_ok hexec]
    rw [hexec] at hnext
    exact hf a s' hnext

theorem state_bind (hg : ∀ s, Keeps P (g s)) : Keeps P (state >>= g) := fun s hs => hg s s hs

end Keeps

end Persistent
