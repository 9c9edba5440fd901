import Passion.Chat.Node

/-!
# Duplicate suppression

The table of what a node has received is written by `AlreadyReceived`, which every handler calls
first, and cleaned by `RemoveOutdatedEntry`, which the chat thread calls every five seconds. The
cleaning removes the entries of the last hour and keeps the older ones.
-/

namespace Passion

open List OrderedMap

/-- A call that reads or writes the table, at the time `GetTime()`. -/
inductive ReceivedCall
  | alreadyReceived (nTime : ℤ) (messageHash : Uint256)
  | removeOutdatedEntry (nTime : ℤ)

/-- The time of a call. -/
def ReceivedCall.time : ReceivedCall → ℤ
  | .alreadyReceived nTime _ => nTime
  | .removeOutdatedEntry nTime => nTime

namespace CChat

/-- The chat after a call. -/
def afterCall (chat : CChat) : ReceivedCall → CChat
  | .alreadyReceived nTime messageHash => (chat.alreadyReceived nTime messageHash).2
  | .removeOutdatedEntry nTime => chat.removeOutdatedEntry nTime

/-- The chat of a node after a sequence of calls. -/
def afterCalls (calls : List ReceivedCall) : CChat := calls.foldl afterCall initial

/-- A call recorded the hash at the time `t`: it was not in the table then. -/
def Recorded (calls : List ReceivedCall) (t : ℤ) (messageHash : Uint256) : Prop :=
  ∃ pre post, calls = pre ++ .alreadyReceived t messageHash :: post ∧
    ((afterCalls pre).alreadyReceived t messageHash).1 = false

/-- **Duplicates are suppressed for an hour**, after the calls made so far: a call for a
recorded hash within the hour reports it, and a cleaning has left no entry of an hour ago. -/
structure SuppressesDuplicates (calls : List ReceivedCall) : Prop where
  reported : ∀ t messageHash, Recorded calls t messageHash → ∀ t', (∀ call ∈ calls, call.time ≤ t') →
    t' < t + 3600 → ((afterCalls calls).alreadyReceived t' messageHash).1 = true
  retained : ∀ pre t, calls = pre ++ [.removeOutdatedEntry t] →
    ∀ entry ∈ (afterCalls calls).mapMessagesReceived.entries, t - 3600 < entry.2

/-- The times of the calls do not decrease. -/
def NonDecreasing (calls : List ReceivedCall) : Prop := calls.Pairwise fun a b => a.time ≤ b.time

/-- The table is only cleaned when it is empty. -/
def CleansEmptyOnly (calls : List ReceivedCall) : Prop :=
  ∀ pre t post, calls = pre ++ .removeOutdatedEntry t :: post →
    (afterCalls pre).mapMessagesReceived.entries = []

variable {chat : CChat} {calls : List ReceivedCall} {t t' : ℤ} {h : Uint256}

/-! ## One call -/

@[simp] theorem alreadyReceived_fst :
    (chat.alreadyReceived t h).1 = (chat.mapMessagesReceived.find? h).isSome := by
  unfold alreadyReceived
  split <;> simp_all

variable {entry : Uint256 × ℤ}

theorem mem_alreadyReceived :
    entry ∈ (chat.alreadyReceived t h).2.mapMessagesReceived.entries ↔
      entry ∈ chat.mapMessagesReceived.entries ∨
        (chat.mapMessagesReceived.find? h = none ∧ entry = (h, t)) := by
  unfold alreadyReceived
  cases hf : chat.mapMessagesReceived.find? h with
  | some v => simp
  | none =>
    have hnot := find?_eq_none_iff.mp hf
    simp only [mem_insert, true_and]
    constructor
    · rintro (rfl | ⟨he, -⟩)
      · exact .inr rfl
      · exact .inl he
    · rintro (he | rfl)
      · exact .inr ⟨he, fun hk => hnot entry.2 (hk ▸ he)⟩
      · exact .inl rfl

/-- **What a cleaning keeps**: the entries that are an hour old. -/
theorem mem_removeOutdatedEntry :
    entry ∈ (chat.removeOutdatedEntry t).mapMessagesReceived.entries ↔
      entry ∈ chat.mapMessagesReceived.entries ∧ entry.2 ≤ t - 3600 := by
  simp only [removeOutdatedEntry, mem_eraseAll, mem_map, mem_filter, decide_eq_true_eq]
  constructor
  · rintro ⟨he, hnot⟩
    refine ⟨he, ?_⟩
    by_contra hlt
    exact hnot ⟨entry, ⟨he, by omega⟩, rfl⟩
  · rintro ⟨he, hle⟩
    refine ⟨he, ?_⟩
    rintro ⟨entry', ⟨he', hlt⟩, hkey⟩
    have hval : entry'.2 = entry.2 := eq_of_mem (hkey ▸ he') he
    omega

/-! ## A sequence of calls -/

@[simp] theorem afterCalls_concat (calls : List ReceivedCall) (call : ReceivedCall) :
    afterCalls (calls ++ [call]) = (afterCalls calls).afterCall call := by
  simp [afterCalls]

theorem Recorded.append (hr : Recorded calls t h) (more : List ReceivedCall) :
    Recorded (calls ++ more) t h := by
  obtain ⟨pre, post, rfl, hfalse⟩ := hr
  exact ⟨pre, post ++ more, by simp, hfalse⟩

/-- The last call recorded the hash, or one before. -/
theorem recorded_concat {call : ReceivedCall} (hr : Recorded (calls ++ [call]) t h) :
    call = .alreadyReceived t h ∨ Recorded calls t h := by
  obtain ⟨pre, post, hcalls, hfalse⟩ := hr
  rcases eq_nil_or_concat post with rfl | ⟨post', last, rfl⟩
  · have hlast := (append_inj' hcalls rfl).2
    exact .inl (cons.inj hlast).1
  · have happ : calls ++ [call] = (pre ++ .alreadyReceived t h :: post') ++ [last] := by
      simpa using hcalls
    exact .inr ⟨pre, post', (append_inj' happ rfl).1, hfalse⟩

/-- What is in the table has been recorded. -/
theorem recorded_of_mem (he : entry ∈ (afterCalls calls).mapMessagesReceived.entries) :
    Recorded calls entry.2 entry.1 := by
  induction calls using reverseRecOn with
  | nil => simp [afterCalls, initial, empty] at he
  | append_singleton calls call ih =>
    rw [afterCalls_concat] at he
    cases call with
    | removeOutdatedEntry t => exact (ih (mem_removeOutdatedEntry.mp he).1).append _
    | alreadyReceived t h =>
      rcases mem_alreadyReceived.mp he with he | ⟨hnone, rfl⟩
      · exact (ih he).append _
      · exact ⟨calls, [], rfl, by simp [hnone]⟩

/-- Where only an empty table is cleaned, what has been recorded is in the table. -/
theorem exists_mem_of_recorded (hc : CleansEmptyOnly calls) (hr : Recorded calls t h) :
    ∃ v, (h, v) ∈ (afterCalls calls).mapMessagesReceived.entries := by
  induction calls using reverseRecOn with
  | nil =>
    obtain ⟨pre, post, hcalls, -⟩ := hr
    simp at hcalls
  | append_singleton calls call ih =>
    have hc' : CleansEmptyOnly calls := fun pre t post hcalls => hc pre t (post ++ [call]) (by
      simp [hcalls])
    rw [afterCalls_concat]
    cases call with
    | removeOutdatedEntry t' =>
      -- nothing can have been recorded before a cleaning
      have hempty := hc calls t' [] rfl
      obtain ⟨v, hv⟩ := ih hc' ((recorded_concat hr).resolve_left (by simp))
      simp [hempty] at hv
    | alreadyReceived t' h' =>
      rcases recorded_concat hr with hlast | hr
      · obtain ⟨rfl, rfl⟩ := ReceivedCall.alreadyReceived.inj hlast
        cases hf : (afterCalls calls).mapMessagesReceived.find? h' with
        | some v => exact ⟨v, mem_alreadyReceived.mpr (.inl (find?_eq_some_iff.mp hf))⟩
        | none => exact ⟨t', mem_alreadyReceived.mpr (.inr ⟨hf, rfl⟩)⟩
      · obtain ⟨v, hv⟩ := ih hc' hr
        exact ⟨v, mem_alreadyReceived.mpr (.inl hv)⟩

/-- A sequence that only cleans an empty table suppresses duplicates. -/
theorem CleansEmptyOnly.suppressesDuplicates (hc : CleansEmptyOnly calls) :
    SuppressesDuplicates calls where
  reported t h hr t' _ _ := by
    obtain ⟨v, hv⟩ := exists_mem_of_recorded hc hr
    rw [alreadyReceived_fst, find?_eq_some_iff.mpr hv, Option.isSome_some]
  retained pre t hcalls entry he := by
    subst hcalls
    rw [afterCalls_concat] at he
    have hempty := hc pre t [] rfl
    have hmem := (mem_removeOutdatedEntry.mp he).1
    simp [hempty] at hmem

/-- A cleaning that leaves duplicates suppressed had nothing to clean: of an entry less than
an hour old it loses the record, and an older one it keeps. -/
theorem SuppressesDuplicates.empty_of_clean {pre : List ReceivedCall}
    (hs : SuppressesDuplicates (pre ++ [.removeOutdatedEntry t]))
    (htimes : NonDecreasing (pre ++ [.removeOutdatedEntry t])) :
    (afterCalls pre).mapMessagesReceived.entries = [] := by
  refine eq_nil_iff_forall_not_mem.mpr fun entry he => ?_
  have hlast : ∀ call ∈ pre ++ [ReceivedCall.removeOutdatedEntry t], call.time ≤ t := by
    intro call hcall
    rcases mem_append.mp hcall with hcall | hcall
    · exact (pairwise_append.mp htimes).2.2 call hcall _ (mem_singleton_self _)
    · rw [mem_singleton.mp hcall]
      exact le_rfl
  by_cases hage : entry.2 ≤ t - 3600
  · have hkept : entry ∈ (afterCalls (pre ++ [.removeOutdatedEntry t])).mapMessagesReceived.entries := by
      rw [afterCalls_concat]
      exact mem_removeOutdatedEntry.mpr ⟨he, hage⟩
    have hyoung := hs.retained pre t rfl entry hkept
    omega
  · have hreported := hs.reported entry.2 entry.1 ((recorded_of_mem he).append _) t hlast (by omega)
    rw [alreadyReceived_fst] at hreported
    obtain ⟨v, hv⟩ := Option.isSome_iff_exists.mp hreported
    rw [afterCalls_concat] at hv
    have hkept := mem_removeOutdatedEntry.mp (find?_eq_some_iff.mp hv)
    have hval : entry.2 = v := eq_of_mem he hkept.1
    have hold : v ≤ t - 3600 := hkept.2
    omega

end CChat

open CChat

/-- **When duplicates are suppressed.** Along calls at times that do not decrease, a hash
recorded at `t` is reported by every later call before `t + 3600` and no cleaning leaves an
entry of an hour ago, exactly if the table is never cleaned but when it is empty. -/
theorem suppressesDuplicates_iff {calls : List ReceivedCall} (htimes : NonDecreasing calls) :
    (∀ pre, pre <+: calls → SuppressesDuplicates pre) ↔ CleansEmptyOnly calls := by
  constructor
  · rintro hs pre t post rfl
    have hpre : pre ++ [.removeOutdatedEntry t] <+: pre ++ .removeOutdatedEntry t :: post :=
      ⟨post, by simp⟩
    exact (hs _ hpre).empty_of_clean (htimes.sublist hpre.sublist)
  · rintro hc pre ⟨post, rfl⟩
    refine CleansEmptyOnly.suppressesDuplicates fun pre' t post' hpre => ?_
    exact hc pre' t (post' ++ post) (by simp [hpre])

/-- Two calls for one hash with a cleaning before them. -/
theorem suppressesDuplicates_second_call :
    NonDecreasing [.removeOutdatedEntry 0, .alreadyReceived 5 BaseUint.zero,
      .alreadyReceived 10 BaseUint.zero] ∧
    ∀ pre, pre <+: [ReceivedCall.removeOutdatedEntry 0, .alreadyReceived 5 BaseUint.zero,
      .alreadyReceived 10 BaseUint.zero] → SuppressesDuplicates pre := by
  have htimes : NonDecreasing [.removeOutdatedEntry 0, .alreadyReceived 5 BaseUint.zero,
      .alreadyReceived 10 BaseUint.zero] := by simp [NonDecreasing, ReceivedCall.time]
  refine ⟨htimes, (suppressesDuplicates_iff htimes).mpr ?_⟩
  intro pre t post hcalls
  match pre, hcalls with
  | [], _ => rfl
  | [p], hcalls => simp at hcalls
  | [p, q], hcalls => simp at hcalls
  | p :: q :: r :: pre, hcalls => simp at hcalls

/-- **The cleaning forgets what it should keep**: a hash recorded five seconds before a
cleaning is not reported after it. -/
theorem not_suppressesDuplicates :
    ¬ ∀ calls : List ReceivedCall, NonDecreasing calls → SuppressesDuplicates calls := by
  intro hall
  let calls : List ReceivedCall :=
    [.alreadyReceived 0 BaseUint.zero, .removeOutdatedEntry 5]
  have hs := hall calls (by simp [calls, NonDecreasing, ReceivedCall.time])
  have hreported := hs.reported 0 BaseUint.zero ⟨[], [.removeOutdatedEntry 5], rfl, rfl⟩ 5
  revert hreported
  decide +kernel

end Passion
