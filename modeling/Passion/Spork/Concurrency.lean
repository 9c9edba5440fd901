import Passion.Common.Runs
import Passion.Spork.Manager

/-!
# Sporks of concurrent calls

`ProcessSporkMsg` holds the lock `cs` twice: once to see whether the spork in memory is as recent,
and once more, after the signature has been verified, to store the message. `UpdateSpork` holds it
once, to store. Between these critical sections other calls run. A step is one critical section or
what a thread does without the lock, and a schedule is any list of steps. So the test says nothing
about what was stored in between.
-/

namespace Passion

open Option Function List

/-- **Where a call stands** between its critical sections. -/
inductive SporkTask
  /-- A `ProcessSporkMsg` that has passed its checks outside of the lock. -/
  | received (spork : CSporkMessage)
  /-- A `ProcessSporkMsg` that has found nothing as recent in memory. -/
  | tested (spork : CSporkMessage)
  /-- A `ProcessSporkMsg` that has stored the message in memory. -/
  | stored (spork : CSporkMessage)
  /-- An `UpdateSpork` that has signed its message. -/
  | signed (spork : CSporkMessage)
  /-- A call that has returned. -/
  | returned

/-- The sporks and the calls under way. -/
structure SporkThreads where
  sporks : Sporks
  tasks : List SporkTask

/-- **A step of a schedule**: a call begins, or the thread with a number goes on. -/
inductive SporkStep
  | process (nAdjustedTime : ℤ) (spork : CSporkMessage)
  | update (nTime : ℤ) (nSporkID : SporkId) (nValue : ℤ)
  | advance (thread : ℕ)

namespace SporkThreads

variable (E : SporkEnv)

/-- No call is under way. -/
def start (s : Sporks) : SporkThreads := ⟨s, []⟩

/-- `ProcessSporkMsg` up to its first critical section. -/
def receive (nAdjustedTime : ℤ) (spork : CSporkMessage) : SporkTask :=
  if getSporkNameByID spork.nSporkID = "Unknown" then .returned
  else if spork.nTimeSigned > nAdjustedTime + 2 * 60 * 60 then .returned
  else if spork.nMessVersion ≠ MESS_VER_HASH then .returned
  else .received spork

/-- `UpdateSpork` up to its critical section. -/
def sign (nTime : ℤ) (nSporkID : SporkId) (nValue : ℤ) (s : Sporks) : SporkTask :=
  match (CSporkMessage.unsigned nSporkID nValue nTime).sign E s.strMasterPrivKey with
  | none => .returned
  | some spork => .signed spork

/-- The next step of a thread: a critical section, or the write to the database after the
last one. -/
def advanceTask (s : Sporks) : SporkTask → Sporks × SporkTask
  | .received spork => (s, if s.inMemoryMoreRecent spork then .returned else .tested spork)
  | .tested spork =>
    if !spork.checkSignature E (sporkKeyID E) then (s, .returned)
    else (s.activate E spork, .stored spork)
  | .stored spork => (s.writeSpork spork, .returned)
  | .signed spork => (s.activate E spork, .returned)
  | .returned => (s, .returned)

/-- One step of a schedule. -/
def step (c : SporkThreads) : SporkStep → SporkThreads
  | .process nAdjustedTime spork => { c with tasks := c.tasks ++ [receive nAdjustedTime spork] }
  | .update nTime nSporkID nValue =>
    { c with tasks := c.tasks ++ [sign E nTime nSporkID nValue c.sporks] }
  | .advance i =>
    match c.tasks[i]? with
    | none => c
    | some task =>
      let r := advanceTask E c.sporks task
      ⟨r.1, c.tasks.set i r.2⟩

/-- The state after a schedule. -/
def run (c : SporkThreads) (steps : List SporkStep) : SporkThreads := steps.foldl (step E) c

/-- The message a task stores in memory in its next step. -/
def storesTask : SporkTask → Option CSporkMessage
  | .tested spork => if spork.checkSignature E (sporkKeyID E) then some spork else none
  | .signed spork => some spork
  | _ => none

/-- The message a step stores in memory. -/
def stores (c : SporkThreads) : SporkStep → Option CSporkMessage
  | .advance i => c.tasks[i]?.bind (storesTask E)
  | _ => none

/-- The next step of a task is a freshness test that succeeds. -/
def testsTask (s : Sporks) : SporkTask → Bool
  | .received spork => !s.inMemoryMoreRecent spork
  | _ => false

/-- The thread whose message passes the freshness test in a step. -/
def tests (c : SporkThreads) : SporkStep → Option ℕ
  | .advance i => if c.tasks[i]?.any (testsTask c.sporks) then some i else none
  | _ => none

variable {E} {c : SporkThreads} {a : SporkStep} {i : ℕ} {spork : CSporkMessage}

/-! ## What a step does -/

theorem advanceTask_mapSporksActive (s : Sporks) (task : SporkTask) :
    (advanceTask E s task).1.mapSporksActive = (storesTask E task).elim s.mapSporksActive
      fun m => update s.mapSporksActive m.nSporkID (some m) := by
  cases task with
  | tested spork =>
    cases hsig : spork.checkSignature E (sporkKeyID E) with
    | false => simp [advanceTask, storesTask, hsig]
    | true => simp [advanceTask, storesTask, hsig]
  | _ => rfl

/-- **A step changes the active sporks only by the message it stores.** -/
theorem step_mapSporksActive (c : SporkThreads) (a : SporkStep) :
    (c.step E a).sporks.mapSporksActive = (c.stores E a).elim c.sporks.mapSporksActive
      fun m => update c.sporks.mapSporksActive m.nSporkID (some m) := by
  cases a with
  | process nAdjustedTime spork => rfl
  | update nTime nSporkID nValue => rfl
  | advance i =>
    simp only [step, stores]
    cases c.tasks[i]? with
    | none => rfl
    | some task => exact advanceTask_mapSporksActive c.sporks task

/-- A task is at its message being tested only after a test that succeeds, which stores
nothing. -/
theorem advanceTask_tested {s : Sporks} {task : SporkTask}
    (h : (advanceTask E s task).2 = .tested spork) :
    testsTask s task = true ∧ storesTask E task = none ∧ s.inMemoryMoreRecent spork = false := by
  cases task with
  | received m =>
    simp only [advanceTask] at h
    cases hrecent : s.inMemoryMoreRecent m with
    | true => simp [hrecent] at h
    | false =>
      simp only [hrecent, Bool.false_eq_true, if_false, SporkTask.tested.injEq] at h
      subst h
      exact ⟨by simp [testsTask, hrecent], rfl, hrecent⟩
  | tested m =>
    simp only [advanceTask] at h
    split_ifs at h
  | stored m => cases h
  | signed m => cases h
  | returned => cases h

/-- A new task is not at a message being tested. -/
theorem getElem?_concat_tested {tasks : List SporkTask} {task : SporkTask}
    (hnew : ∀ m, task ≠ .tested m) (h : (tasks ++ [task])[i]? = some (.tested spork)) :
    tasks[i]? = some (.tested spork) := by
  rcases Nat.lt_trichotomy i tasks.length with hlt | heq | hgt
  · rwa [getElem?_append_left hlt] at h
  · rw [heq, getElem?_concat_length] at h
    exact absurd (some.inj h) (hnew spork)
  · rw [getElem?_eq_none (by simp only [length_append, length_singleton]; omega)] at h
    cases h

/-- **A thread whose message has passed the test** was there already, or passes it in this
step; then nothing in memory is as recent. -/
theorem tested_of_step (h : (c.step E a).tasks[i]? = some (.tested spork)) :
    c.tests a ≠ some i ∧ c.tasks[i]? = some (.tested spork) ∨
      c.tests a = some i ∧ c.stores E a = none ∧ c.sporks.inMemoryMoreRecent spork = false := by
  cases a with
  | process nAdjustedTime m =>
    refine .inl ⟨nofun, getElem?_concat_tested (fun m' => ?_) h⟩
    unfold receive
    split_ifs <;> simp
  | update nTime nSporkID nValue =>
    refine .inl ⟨nofun, getElem?_concat_tested (fun m' => ?_) h⟩
    unfold sign
    split <;> simp
  | advance j =>
    simp only [step, tests, stores] at h ⊢
    cases htask : c.tasks[j]? with
    | none =>
      rw [htask] at h
      exact .inl ⟨by simp, h⟩
    | some task =>
      simp only [htask] at h
      by_cases hij : j = i
      · subst hij
        have hlt : j < c.tasks.length := (List.getElem?_eq_some_iff.mp htask).1
        rw [getElem?_set_self hlt] at h
        obtain ⟨htest, hstore, hrecent⟩ := advanceTask_tested (some.inj h)
        exact .inr ⟨by simp [htest], by simp [hstore], hrecent⟩
      · rw [getElem?_set_ne hij] at h
        refine .inl ⟨fun htest => hij ?_, h⟩
        split_ifs at htest
        exact some.inj htest

/-! ## A call without others in between -/

/-- The last thread goes on. -/
theorem step_advance_last (s : Sporks) (tasks : List SporkTask) (task : SporkTask) :
    step E ⟨s, tasks ++ [task]⟩ (.advance tasks.length) =
      ⟨(advanceTask E s task).1, tasks ++ [(advanceTask E s task).2]⟩ := by
  simp [step]

/-- **`ProcessSporkMsg` is its three steps**, if no other thread goes on in between. -/
theorem run_process_alone (c : SporkThreads) (nAdjustedTime : ℤ) (spork : CSporkMessage) :
    (c.run E [.process nAdjustedTime spork, .advance c.tasks.length, .advance c.tasks.length,
      .advance c.tasks.length]).sporks = (c.sporks.processSporkMsg E nAdjustedTime spork).2 := by
  have hbegin : c.step E (.process nAdjustedTime spork) =
      ⟨c.sporks, c.tasks ++ [receive nAdjustedTime spork]⟩ := rfl
  simp only [run, foldl_cons, foldl_nil, hbegin, step_advance_last]
  unfold receive Sporks.processSporkMsg
  split_ifs with hname htime hversion hrecent hsig
  all_goals simp_all [advanceTask]

/-- **`UpdateSpork` is its one step**, if no other thread goes on in between. -/
theorem run_update_alone (c : SporkThreads) (nTime : ℤ) (nSporkID : SporkId) (nValue : ℤ) :
    (c.run E [.update nTime nSporkID nValue, .advance c.tasks.length]).sporks =
      (c.sporks.updateSpork E nTime nSporkID nValue).2 := by
  have hbegin : c.step E (.update nTime nSporkID nValue) =
      ⟨c.sporks, c.tasks ++ [sign E nTime nSporkID nValue c.sporks]⟩ := rfl
  simp only [run, foldl_cons, foldl_nil, hbegin, step_advance_last]
  unfold sign Sporks.updateSpork
  cases (CSporkMessage.unsigned nSporkID nValue nTime).sign E c.sporks.strMasterPrivKey <;> rfl

end SporkThreads

/-! ## What was stored since a message was tested -/

/-- **The threads under observation**: for every thread what has been stored since its message
passed the freshness test. -/
structure WatchedThreads where
  threads : SporkThreads
  since : ℕ → List CSporkMessage

/-- **No active spork goes back**: what was active for an id is followed by something signed
no earlier. -/
def Sporks.NotOlder (s s' : Sporks) : Prop :=
  ∀ id, ∀ m ∈ s.mapSporksActive id, ∃ m' ∈ s'.mapSporksActive id, m.nTimeSigned ≤ m'.nTimeSigned

namespace WatchedThreads

variable (E : SporkEnv)

/-- No call is under way. -/
def start (s : Sporks) : WatchedThreads := ⟨.start s, fun _ => []⟩

/-- One step of a schedule, observed. -/
def step (w : WatchedThreads) (a : SporkStep) : WatchedThreads where
  threads := w.threads.step E a
  since := fun i =>
    if w.threads.tests a = some i then [] else w.since i ++ (w.threads.stores E a).toList

/-- The state after a schedule, observed. -/
def run (w : WatchedThreads) (steps : List SporkStep) : WatchedThreads := steps.foldl (step E) w

/-- Observing changes nothing. -/
theorem run_threads (w : WatchedThreads) (steps : List SporkStep) :
    (w.run E steps).threads = w.threads.run E steps := by
  induction steps generalizing w with
  | nil => rfl
  | cons a steps ih => exact ih (w.step E a)

variable {E} {w : WatchedThreads} {a : SporkStep}

/-- **What the observation means.** The active spork for the id of a message that has passed
its test is signed earlier, or was stored since; and where no active spork has gone back, what
was stored since is signed no later than the active spork. -/
structure Sound (w : WatchedThreads) : Prop where
  tested : ∀ i spork, w.threads.tasks[i]? = some (.tested spork) →
    ∀ m ∈ w.threads.sporks.mapSporksActive spork.nSporkID,
      m.nTimeSigned < spork.nTimeSigned ∨ m ∈ w.since i ∧ m.nSporkID = spork.nSporkID
  since : ∀ i, ∀ m ∈ w.since i,
    ∃ b ∈ w.threads.sporks.mapSporksActive m.nSporkID, m.nTimeSigned ≤ b.nTimeSigned

theorem sound_start (s : Sporks) : (start s).Sound where
  tested := fun i spork h => by simp [start, SporkThreads.start] at h
  since := fun i m hm => by simp [start] at hm

theorem mem_since_step {i : ℕ} {m : CSporkMessage} (h : m ∈ (w.step E a).since i) :
    m ∈ w.since i ∨ w.threads.stores E a = some m := by
  simp only [step] at h
  split_ifs at h
  · cases h
  · simpa using h

/-- **One step** keeps the observation sound, if no active spork goes back. -/
theorem Sound.step (h : w.Sound)
    (hnot : w.threads.sporks.NotOlder (w.threads.step E a).sporks) : (w.step E a).Sound where
  tested := by
    intro i spork htask m hm
    replace hm : m ∈ (w.threads.step E a).sporks.mapSporksActive spork.nSporkID := hm
    rw [SporkThreads.step_mapSporksActive] at hm
    rcases SporkThreads.tested_of_step htask with ⟨hnew, hold⟩ | ⟨-, hstore, hrecent⟩
    · have hsince : (w.step E a).since i = w.since i ++ (w.threads.stores E a).toList := if_neg hnew
      rw [hsince]
      cases hstore : w.threads.stores E a with
      | none =>
        rw [hstore] at hm
        simpa using h.tested i spork hold m hm
      | some b =>
        rw [hstore] at hm
        simp only [elim_some] at hm
        by_cases hid : spork.nSporkID = b.nSporkID
        · rw [hid, update_self, mem_some_iff] at hm
          subst hm
          exact .inr ⟨by simp, hid.symm⟩
        · rw [update_of_ne hid] at hm
          rcases h.tested i spork hold m hm with hlt | ⟨hmem, hmid⟩
          · exact .inl hlt
          · exact .inr ⟨by simp [hmem], hmid⟩
    · rw [hstore] at hm
      simp only [elim_none] at hm
      rw [Sporks.inMemoryMoreRecent, hm] at hrecent
      exact .inl (by simpa using hrecent)
  since := by
    intro i m hm
    change ∃ b ∈ (w.threads.step E a).sporks.mapSporksActive m.nSporkID, _
    rcases mem_since_step hm with hmem | hstore
    · obtain ⟨b, hb, hle⟩ := h.since i m hmem
      obtain ⟨b', hb', hle'⟩ := hnot m.nSporkID b hb
      exact ⟨b', hb', by omega⟩
    · exact ⟨m, by simp [SporkThreads.step_mapSporksActive, hstore], le_rfl⟩

variable (E) in
/-- **A step that stores nothing out of order**: `ProcessSporkMsg` stores a message only if
none for the same id that was signed later has been stored since its test, and `UpdateSpork`
only if its clock is not behind the signing time of the active spork. -/
def InOrder (w : WatchedThreads) : SporkStep → Prop
  | .advance i =>
    match w.threads.tasks[i]? with
    | some (.tested spork) => spork.checkSignature E (sporkKeyID E) = true →
        ∀ m ∈ w.since i, m.nSporkID = spork.nSporkID → m.nTimeSigned ≤ spork.nTimeSigned
    | some (.signed spork) =>
        ∀ m ∈ w.threads.sporks.mapSporksActive spork.nSporkID, m.nTimeSigned ≤ spork.nTimeSigned
    | _ => True
  | _ => True

/-- A step goes back exactly if it stores a message over one signed later. -/
theorem notOlder_step_iff : w.threads.sporks.NotOlder (w.threads.step E a).sporks ↔
    ∀ b ∈ w.threads.stores E a,
      ∀ m ∈ w.threads.sporks.mapSporksActive b.nSporkID, m.nTimeSigned ≤ b.nTimeSigned := by
  unfold Sporks.NotOlder
  rw [SporkThreads.step_mapSporksActive]
  cases w.threads.stores E a with
  | none => exact ⟨fun _ b hb => by simp at hb, fun _ id m hm => ⟨m, hm, le_rfl⟩⟩
  | some b =>
    simp only [elim_some, mem_some_iff, forall_eq']
    constructor
    · intro h m hm
      obtain ⟨m', hm', hle⟩ := h b.nSporkID m hm
      rw [update_self, mem_some_iff] at hm'
      exact hm' ▸ hle
    · intro h id m hm
      by_cases hid : id = b.nSporkID
      · subst hid
        exact ⟨b, by simp, h m hm⟩
      · exact ⟨m, by rwa [update_of_ne hid], le_rfl⟩

/-- **When one step does not go back.** -/
theorem notOlder_step_iff_inOrder (h : w.Sound) :
    w.threads.sporks.NotOlder (w.threads.step E a).sporks ↔ w.InOrder E a := by
  rw [notOlder_step_iff]
  cases a with
  | process nAdjustedTime spork => simp [SporkThreads.stores, InOrder]
  | update nTime nSporkID nValue => simp [SporkThreads.stores, InOrder]
  | advance i =>
    simp only [SporkThreads.stores, InOrder]
    cases htask : w.threads.tasks[i]? with
    | none => simp
    | some task =>
      cases task with
      | received spork => simp [SporkThreads.storesTask]
      | stored spork => simp [SporkThreads.storesTask]
      | returned => simp [SporkThreads.storesTask]
      | signed spork => simp [SporkThreads.storesTask]
      | tested spork =>
        cases hsig : spork.checkSignature E (sporkKeyID E) with
        | false => simp [SporkThreads.storesTask, hsig]
        | true =>
          simp only [bind_some, SporkThreads.storesTask, hsig, if_true, mem_some_iff, forall_eq',
            true_implies]
          constructor
          · -- what was stored since is no later than the active spork
            intro hactive m hm hid
            obtain ⟨b, hb, hle⟩ := h.since i m hm
            have hb' := hactive b (hid ▸ hb)
            omega
          · intro hsince m hm
            rcases h.tested i spork htask m hm with hlt | ⟨hmem, hid⟩
            · omega
            · exact hsince m hmem hid

end WatchedThreads

/-- **When active sporks never go back**: over any schedule of any number of calls the signing
time of the active spork of an id never decreases, exactly if no step of the schedule stores a
message out of order. -/
theorem sporks_notOlder_iff (E : SporkEnv) (s : Sporks) (steps : List SporkStep) :
    (∀ pre a post, steps = pre ++ a :: post →
        ((SporkThreads.start s).run E pre).sporks.NotOlder
          ((SporkThreads.start s).run E (pre ++ [a])).sporks) ↔
      ∀ pre a post, steps = pre ++ a :: post → ((WatchedThreads.start s).run E pre).InOrder E a := by
  have hrun : ∀ pre, ((WatchedThreads.start s).run E pre).threads =
      (SporkThreads.start s).run E pre := (WatchedThreads.run_threads E _)
  have hstep : ∀ pre a, (SporkThreads.start s).run E (pre ++ [a]) =
      ((WatchedThreads.start s).run E pre).threads.step E a := by
    intro pre a
    rw [hrun, SporkThreads.run, foldl_append]
    rfl
  simp only [hstep, ← hrun]
  exact Run.forall_step_iff (WatchedThreads.sound_start s)
    (fun w a hw => WatchedThreads.notOlder_step_iff_inOrder hw) (fun w a hw hnot => hw.step hnot)

open SporkSample in
/-- **An older message can overtake**: two messages pass the test while no spork is active; the
one signed later is stored first, and the other one replaces it. -/
theorem not_sporks_notOlder :
    ¬ ∀ (E : SporkEnv) (s : Sporks) (steps pre post : List SporkStep) (a : SporkStep),
      steps = pre ++ a :: post → ((SporkThreads.start s).run E pre).sporks.NotOlder
        ((SporkThreads.start s).run E (pre ++ [a])).sporks := by
  intro h
  let s : Sporks := ⟨[], fun _ => none, fun _ => none, fun _ => none⟩
  let pre : List SporkStep :=
    [.process 11 (message 1 10), .process 11 (message 2 11), .advance 0, .advance 1, .advance 1]
  obtain ⟨m, hm, hle⟩ := h env s _ pre [] (.advance 0) rfl SPORK_5_MAX_VALUE (message 2 11)
    (by decide +kernel)
  have hlast : ((SporkThreads.start s).run env (pre ++ [.advance 0])).sporks.mapSporksActive
      SPORK_5_MAX_VALUE = some (message 1 10) := by decide +kernel
  rw [hlast, mem_some_iff] at hm
  subst hm
  exact absurd hle (by decide)

end Passion
