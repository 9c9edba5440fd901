import Passion.Spork.Manager

/-!
# Sporks after a restart

A node that restarts takes its sporks from the database. `ProcessSporkMsg` writes a message to
memory and to the database; `UpdateSpork`, the call of the operator that holds the spork key, writes
it to memory only.
-/

namespace Passion

open List Function CSporkMessage

/-- A call that can change the sporks of a node. -/
inductive SporkCall
  /-- `ProcessSporkMsg`, with `GetAdjustedTime()`. -/
  | process (nAdjustedTime : ℤ) (spork : CSporkMessage)
  /-- `UpdateSpork`, with `GetTime()`. -/
  | update (nTime : ℤ) (nSporkID : SporkId) (nValue : ℤ)

namespace Sporks

variable (E : SporkEnv)

/-- The state after a call. -/
def perform (s : Sporks) : SporkCall → Sporks
  | .process nAdjustedTime spork => (processSporkMsg E nAdjustedTime spork s).2
  | .update nTime nSporkID nValue => (updateSpork E nTime nSporkID nValue s).2

/-- The state after a sequence of calls. -/
def performAll (s : Sporks) (calls : List SporkCall) : Sporks := calls.foldl (perform E) s

/-- The value the database gives for an id: that of its record, or the default. -/
def storedValue (db : SporkId → Option CSporkMessage) (id : SporkId) : ℤ :=
  (⟨[], db, fun _ => none, db⟩ : Sporks).getSporkValue id

/-- **A database `LoadSporksFromDB` reads to its end**: every record is the one of its key, and
spork 15 is not stale. -/
structure Readable (db : SporkId → Option CSporkMessage) : Prop where
  keyed : ∀ id m, db id = some m → m.nSporkID = id
  notStale : ∀ m, db SPORK_15_NEW_PROTOCOL_ENFORCEMENT_2 = some m → staleSporkTime < m.nTimeSigned

/-- The sporks of a node have the values a restart would give them. -/
def Survives (s : Sporks) : Prop :=
  ∀ strMasterPrivKey, ∀ d ∈ sporkDefs,
    s.getSporkValue d.sporkId = (restart E strMasterPrivKey s.db).getSporkValue d.sporkId

/-- **An update that the database agrees with**: if it is signed and the id is known, it sets
the value the database gives already. -/
def UpdateStored (s : Sporks) (nTime : ℤ) (nSporkID : SporkId) (nValue : ℤ) : Prop :=
  (sporkDefById nSporkID).isSome = true →
    ((CSporkMessage.unsigned nSporkID nValue nTime).sign E s.strMasterPrivKey).isSome = true →
      storedValue s.db nSporkID = nValue

variable {E} {s : Sporks} {db : SporkId → Option CSporkMessage} {id : SporkId}

/-! ## What a restart reads -/

theorem Readable.isStale_eq_false (h : Readable db) {m : CSporkMessage} (hm : db id = some m) :
    isStale m = false := by
  by_contra hstale
  obtain ⟨hid, htime⟩ : m.nSporkID = SPORK_15_NEW_PROTOCOL_ENFORCEMENT_2 ∧
      m.nTimeSigned ≤ staleSporkTime := by simpa [isStale] using hstale
  have hkey := h.keyed id m hm
  have hlt := h.notStale m (by rw [← hid, hkey]; exact hm)
  omega

/-- The loop of `LoadSporksFromDB` activates the record of each definition it passes. -/
theorem loadLoop_mapSporksActive (h : Readable s.db) (ds : List CSporkDef) :
    (loadLoop E ds s).mapSporksActive id =
      if (∃ d ∈ ds, d.sporkId = id) ∧ s.db id ≠ none then s.db id else s.mapSporksActive id := by
  induction ds generalizing s with
  | nil => simp [loadLoop]
  | cons d ds ih =>
    unfold loadLoop
    cases hd : s.db d.sporkId with
    | none =>
      rw [ih h]
      by_cases hid : d.sporkId = id
      · have hnone : s.db id = none := hid ▸ hd
        simp [hnone]
      · simp [hid]
    | some m =>
      have hkey := h.keyed d.sporkId m hd
      dsimp only
      rw [if_neg (by simp [h.isStale_eq_false hd]), ih (by simpa using h), activate_mapSporksActive,
        hkey]
      by_cases hid : d.sporkId = id
      · subst hid
        simp [hd]
      · simp [hid, update_of_ne (Ne.symm hid)]

/-- **After a restart a known spork has the value the database gives.** -/
theorem restart_getSporkValue (h : Readable db) (strMasterPrivKey : StdString) {d : CSporkDef}
    (hd : d ∈ sporkDefs) :
    (restart E strMasterPrivKey db).getSporkValue d.sporkId = storedValue db d.sporkId := by
  have hactive : (restart E strMasterPrivKey db).mapSporksActive d.sporkId = db d.sporkId := by
    rw [restart, loadSporksFromDB, loadLoop_mapSporksActive h]
    by_cases hdb : db d.sporkId = none
    · simp [hdb]
    · rw [if_pos ⟨⟨d, hd, rfl⟩, hdb⟩]
  rw [storedValue, getSporkValue_eq, getSporkValue_eq, hactive]

theorem loadLoop_db (ds : List CSporkDef) : (loadLoop E ds s).db = s.db := by
  induction ds generalizing s with
  | nil => rfl
  | cons d ds ih =>
    unfold loadLoop
    split
    · exact ih
    · split_ifs
      · rfl
      · rw [ih, activate_db]

@[simp] theorem restart_db (strMasterPrivKey : StdString) :
    (restart E strMasterPrivKey db).db = db := loadLoop_db sporkDefs

theorem survives_restart (h : Readable db) (strMasterPrivKey : StdString) :
    (restart E strMasterPrivKey db).Survives E := by
  intro key d hd
  rw [restart_db, restart_getSporkValue h _ hd, restart_getSporkValue h _ hd]

/-! ## One call -/

theorem sign_fields {m m' : CSporkMessage} {key : StdString} (h : m.sign E key = some m') :
    m'.nSporkID = m.nSporkID ∧ m'.nValue = m.nValue := by
  unfold sign at h
  split at h
  · dsimp only at h
    split at h
    · cases h
    · split_ifs at h
      obtain rfl := Option.some.inj h
      exact ⟨rfl, rfl⟩
  · cases h

/-- The database stays readable, as long as no stale spork 15 is stored. -/
theorem Readable.perform (h : Readable s.db) (call : SporkCall)
    (hstale : ∀ m, (s.perform E call).mapSporksActive SPORK_15_NEW_PROTOCOL_ENFORCEMENT_2 = some m →
      staleSporkTime < m.nTimeSigned) : Readable (s.perform E call).db := by
  cases call with
  | update nTime nSporkID nValue =>
    have hdb : (s.perform E (.update nTime nSporkID nValue)).db = s.db := by
      unfold Sporks.perform updateSpork
      dsimp only
      split <;> rfl
    exact hdb ▸ h
  | process nAdjustedTime m =>
    unfold Sporks.perform at hstale ⊢
    dsimp only at hstale ⊢
    rcases processSporkMsg_cases E nAdjustedTime m s with heq | ⟨-, heq⟩
    · rwa [heq]
    · rw [heq] at hstale ⊢
      simp only [writeSpork_db]
      constructor
      · intro id c hc
        by_cases hid : id = m.nSporkID
        · subst hid
          simp only [update_self, Option.some.injEq] at hc
          rw [hc]
        · rw [update_of_ne hid] at hc
          exact h.keyed id c hc
      · intro c hc
        by_cases hid : SPORK_15_NEW_PROTOCOL_ENFORCEMENT_2 = m.nSporkID
        · rw [hid] at hc hstale
          exact hstale c (by simpa using hc)
        · rw [update_of_ne hid] at hc
          exact h.notStale c hc

/-- What `Survives` says where the database is readable. -/
theorem survives_iff (h : Readable s.db) :
    s.Survives E ↔ ∀ d ∈ sporkDefs, s.getSporkValue d.sporkId = storedValue s.db d.sporkId := by
  constructor
  · intro hs d hd
    rw [hs [] d hd, restart_getSporkValue h _ hd]
  · intro hs key d hd
    rw [hs d hd, restart_getSporkValue h _ hd]

/-- Whether a call writes what a restart reads. -/
def CallStored (E : SporkEnv) (s : Sporks) : SporkCall → Prop
  | .process _ _ => True
  | .update nTime nSporkID nValue => s.UpdateStored E nTime nSporkID nValue

/-- **One call**: the values survive it exactly if it writes what a restart reads. -/
theorem survives_perform_iff (h : Readable s.db) (hs : s.Survives E) {call : SporkCall}
    (h' : Readable (s.perform E call).db) :
    (s.perform E call).Survives E ↔ s.CallStored E call := by
  have hval := (survives_iff h).mp hs
  rw [survives_iff h']
  cases call with
  | process nAdjustedTime m =>
    refine ⟨fun _ => trivial, fun _ d hd => ?_⟩
    unfold perform
    dsimp only
    rcases processSporkMsg_cases E nAdjustedTime m s with heq | ⟨-, heq⟩
    · rw [heq]
      exact hval d hd
    · rw [heq]
      have hd' := hval d hd
      rw [storedValue, getSporkValue_eq, getSporkValue_eq] at hd' ⊢
      by_cases hid : d.sporkId = m.nSporkID
      · simp [hid]
      · simpa [update_of_ne hid] using hd'
  | update nTime nSporkID nValue =>
    unfold perform updateSpork CallStored UpdateStored
    dsimp only
    cases hsign : (unsigned nSporkID nValue nTime).sign E s.strMasterPrivKey with
    | none => simpa using hval
    | some m =>
      obtain ⟨hid, hvalue⟩ := sign_fields hsign
      simp only [Option.isSome_some, forall_const, activate_db]
      constructor
      · intro hall hknown
        obtain ⟨d, hd⟩ := Option.isSome_iff_exists.mp hknown
        have hdid : d.sporkId = nSporkID := by simpa using find?_some hd
        have hd' := hall d (mem_of_find?_eq_some hd)
        rw [hdid] at hd'
        rw [← hd', getSporkValue_eq, activate_mapSporksActive, hid]
        simpa [unsigned] using hvalue
      · intro hstored d hd
        rw [getSporkValue_eq, activate_mapSporksActive, hid]
        by_cases hdid : d.sporkId = nSporkID
        · have hknown : (sporkDefById nSporkID).isSome = true := by
            rw [sporkDefById, find?_isSome]
            exact ⟨d, hd, by simpa using hdid⟩
          rw [hdid, hstored hknown]
          simpa [unsigned] using hvalue
        · have hd' := hval d hd
          rw [getSporkValue_eq] at hd'
          rw [update_of_ne (by simpa [unsigned] using hdid)]
          exact hd'

/-! ## A sequence of calls -/

/-- No state along the calls has a stale spork 15 in memory. -/
def NeverStale (E : SporkEnv) (s : Sporks) (calls : List SporkCall) : Prop :=
  ∀ pre, pre <+: calls → ∀ m,
    (s.performAll E pre).mapSporksActive SPORK_15_NEW_PROTOCOL_ENFORCEMENT_2 = some m →
      staleSporkTime < m.nTimeSigned

variable {calls : List SporkCall}

theorem neverStale_of_none (h : ∀ pre ∈ calls.inits,
    (s.performAll E pre).mapSporksActive SPORK_15_NEW_PROTOCOL_ENFORCEMENT_2 = none) :
    s.NeverStale E calls := fun pre hpre _ hm =>
  absurd (hm.symm.trans (h pre ((mem_inits pre calls).mpr hpre))) (by simp)

theorem NeverStale.tail {call : SporkCall} (h : s.NeverStale E (call :: calls)) :
    (s.perform E call).NeverStale E calls :=
  fun pre hpre => h (call :: pre) (cons_prefix_cons.mpr ⟨rfl, hpre⟩)

/-- **A whole run**: from a state that would survive, every state along the calls would,
exactly if every call writes what a restart reads. -/
theorem survives_performAll_iff (h : Readable s.db) (hs : s.Survives E)
    (hstale : s.NeverStale E calls) :
    (∀ pre, pre <+: calls → (s.performAll E pre).Survives E) ↔
      ∀ pre call post, calls = pre ++ call :: post →
        (s.performAll E pre).CallStored E call := by
  induction calls generalizing s with
  | nil =>
    refine ⟨fun _ pre call post hcalls => by simp at hcalls, fun _ pre hpre => ?_⟩
    rw [prefix_nil.mp hpre]
    exact hs
  | cons call calls ih =>
    have h' : Readable (s.perform E call).db :=
      h.perform call (hstale [call] (cons_prefix_cons.mpr ⟨rfl, nil_prefix⟩))
    have hstep := survives_perform_iff h hs h'
    constructor
    · intro hall pre c post hcalls
      have hs' : (s.perform E call).Survives E :=
        hall [call] (cons_prefix_cons.mpr ⟨rfl, nil_prefix⟩)
      cases pre with
      | nil =>
        obtain ⟨rfl, -⟩ := cons.inj hcalls
        exact hstep.mp hs'
      | cons p pre =>
        obtain ⟨rfl, hrest⟩ := cons.inj hcalls
        refine (ih h' hs' hstale.tail).mp (fun q hq => ?_) pre c post hrest
        exact hall (call :: q) (cons_prefix_cons.mpr ⟨rfl, hq⟩)
    · intro hall pre hpre
      have hs' : (s.perform E call).Survives E := hstep.mpr (hall [] call calls rfl)
      cases pre with
      | nil => exact hs
      | cons p pre =>
        obtain ⟨rfl, hrest⟩ := cons_prefix_cons.mp hpre
        refine (ih h' hs' hstale.tail).mpr (fun q c post hq => ?_) pre hrest
        exact hall (p :: q) c post (by rw [hq, cons_append])

end Sporks

variable {E : SporkEnv}

open Sporks in
/-- **When sporks survive a restart.** From a start on a readable database, along every
sequence of calls that stores no stale spork 15, each state has the values that a restart on
its database gives, exactly if every update that is signed and names a known id sets the value
that the database gives for it already. -/
theorem getSporkValue_survives_restart_iff {db : SporkId → Option CSporkMessage}
    {strMasterPrivKey : StdString} {calls : List SporkCall} (hdb : Readable db)
    (hstale : (restart E strMasterPrivKey db).NeverStale E calls) :
    (∀ pre, pre <+: calls → ∀ key, ∀ d ∈ sporkDefs,
        ((restart E strMasterPrivKey db).performAll E pre).getSporkValue d.sporkId =
          (restart E key ((restart E strMasterPrivKey db).performAll E pre).db).getSporkValue
            d.sporkId) ↔
      ∀ pre nTime nSporkID nValue post, calls = pre ++ .update nTime nSporkID nValue :: post →
        ((restart E strMasterPrivKey db).performAll E pre).UpdateStored E nTime nSporkID nValue := by
  have hrun := survives_performAll_iff (by simpa using hdb)
    (survives_restart hdb strMasterPrivKey) hstale
  refine hrun.trans ⟨fun h pre nTime nSporkID nValue post => h pre _ post, ?_⟩
  intro h pre call post hcalls
  cases call with
  | process nAdjustedTime m => trivial
  | update nTime nSporkID nValue => exact h pre nTime nSporkID nValue post hcalls

namespace SporkSample

/-- A secret that the sample decodes to a key. -/
def strPrivKey : StdString :=
  (encodeBase58Check env.toHashing (mainPrefixes.SECRET_KEY ++ List.replicate 32 1)).toOption.getD []

/-- A node that has seen nothing, with the spork key. -/
def fresh : Sporks := Sporks.restart env strPrivKey fun _ => none

end SporkSample

open SporkSample Sporks in
/-- A message from a peer and an update to the same value: the value survives. -/
theorem getSporkValue_survives_same_value :
    Readable (fun _ => none) ∧
    fresh.NeverStale env [.process 10 (message 7 10), .update 20 SPORK_5_MAX_VALUE 7] ∧
    ∀ pre, pre <+: [.process 10 (message 7 10), .update 20 SPORK_5_MAX_VALUE 7] →
      ∀ key, ∀ d ∈ sporkDefs, (fresh.performAll env pre).getSporkValue d.sporkId =
        (restart env key (fresh.performAll env pre).db).getSporkValue d.sporkId := by
  have hdb : Readable (fun _ => none) := ⟨by simp, by simp⟩
  have hstale : fresh.NeverStale env [.process 10 (message 7 10), .update 20 SPORK_5_MAX_VALUE 7] :=
    neverStale_of_none (by decide +kernel)
  refine ⟨hdb, hstale, (getSporkValue_survives_restart_iff hdb hstale).mpr ?_⟩
  intro pre nTime nSporkID nValue post hcalls
  -- the update is the second call
  match pre, hcalls with
  | [], hcalls => simp at hcalls
  | [p], hcalls =>
    obtain ⟨rfl, ⟨rfl, rfl, rfl⟩, -⟩ := hcalls
    have hstored : storedValue (fresh.performAll env [.process 10 (message 7 10)]).db
        SPORK_5_MAX_VALUE = 7 := by decide +kernel
    exact fun _ _ => hstored
  | p :: q :: pre, hcalls => simp at hcalls

open SporkSample Sporks in
/-- **An update is lost at a restart**: the operator sets a value, and the database does not
have it. -/
theorem not_getSporkValue_survives_restart :
    ¬ ∀ (E : SporkEnv) (db : SporkId → Option CSporkMessage) (strMasterPrivKey : StdString)
      (calls : List SporkCall), Readable db → (restart E strMasterPrivKey db).NeverStale E calls →
      ∀ key, ∀ d ∈ sporkDefs,
        ((restart E strMasterPrivKey db).performAll E calls).getSporkValue d.sporkId =
          (restart E key ((restart E strMasterPrivKey db).performAll E calls).db).getSporkValue
            d.sporkId := by
  intro h
  have hstale : fresh.NeverStale env [.update 20 SPORK_5_MAX_VALUE 7] :=
    neverStale_of_none (by decide +kernel)
  have hvalue := h env (fun _ => none) strPrivKey [.update 20 SPORK_5_MAX_VALUE 7]
    ⟨by simp, by simp⟩ hstale [] ⟨SPORK_5_MAX_VALUE, 1000, "SPORK_5_MAX_VALUE"⟩
    (mem_cons_self ..)
  revert hvalue
  decide +kernel

end Passion
