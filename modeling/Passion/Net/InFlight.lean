import Passion.Common.OwnerIndex
import Passion.Common.Stateful
import Passion.Common.Tables
import Passion.Primitives.Transaction

/-!
# Blocks in flight

The accounts `net_processing.cpp` keeps of the blocks it has asked peers for: a list for each peer
with its length, a map from the hash of a block to the peer and the place in its list, and the
number of entries with validated headers. `InitializeNode`, `FinalizeNode`, `MarkBlockAsReceived`
and `MarkBlockAsInFlight` keep the map, the lists and the lengths in step. `FinalizeNode` drops the
entries of a peer without taking them out of the number of validated ones.

Left out: the other fields of a node's state.
-/

namespace Passion

open Option AList

/-- `QueuedBlock`. The index entry is named by its hash. -/
structure QueuedBlock where
  hash : Uint256
  pindex : Option Uint256
  nTime : ℤ
  nValidatedQueuedBefore : ℤ
  fValidatedHeaders : Bool

/-- The fields of `CNodeState` that are used here. The elements of `vBlocksInFlight` are named
by a number, which stands for the iterators to them; the youngest is the first. -/
structure CNodeState where
  fCurrentlyConnected : Bool
  nMisbehavior : ℤ
  fSyncStarted : Bool
  nStallingSince : ℤ
  vBlocksInFlight : AList fun _ : ℕ => QueuedBlock
  nBlocksInFlight : ℤ
  fPreferredDownload : Bool

/-- `CNodeState(addrIn, addrNameIn)`. -/
def CNodeState.initial : CNodeState := ⟨false, 0, false, 0, ∅, 0, false⟩

/-- The maps and counters, and the number for the next element of a list. -/
structure DownloadState where
  mapNodeState : AList fun _ : ℤ => CNodeState
  mapBlocksInFlight : AList fun _ : Uint256 => ℤ × ℕ
  nQueuedValidatedHeaders : ℤ
  nSyncStarted : ℤ
  nPreferredDownload : ℤ
  nextElement : ℕ

namespace DownloadState

/-- The state at the start of the node. -/
def initial : DownloadState := ⟨∅, ∅, 0, 0, 0, 0⟩

/-- `InitializeNode`. -/
def initializeNode (s : DownloadState) (nodeid : ℤ) : DownloadState :=
  if nodeid ∈ s.mapNodeState then s
  else { s with mapNodeState := s.mapNodeState.insert nodeid .initial }

/-- `FinalizeNode`, with the value of `fUpdateConnectionTime`. -/
def finalizeNode (s : DownloadState) (nodeid : ℤ) : Result (Bool × DownloadState) :=
  match s.mapNodeState.lookup nodeid with
  | none => .error (.outOfBounds "*State(nodeid)")
  | some state =>
    .ok (decide (state.nMisbehavior = 0) && state.fCurrentlyConnected, { s with
      mapNodeState := s.mapNodeState.erase nodeid
      mapBlocksInFlight := OwnerIndex.eraseAll s.mapBlocksInFlight
        (state.vBlocksInFlight.entries.map fun entry => entry.2.hash)
      nSyncStarted := s.nSyncStarted - (if state.fSyncStarted then 1 else 0)
      nPreferredDownload := s.nPreferredDownload - (if state.fPreferredDownload then 1 else 0) })

/-- `MarkBlockAsReceived`. -/
def markBlockAsReceived (s : DownloadState) (hash : Uint256) : Result DownloadState :=
  match s.mapBlocksInFlight.lookup hash with
  | none => .ok s
  | some (nodeid, it) =>
    match s.mapNodeState.lookup nodeid with
    | none => .error (.outOfBounds "*State(itInFlight->second.first)")
    | some state =>
      match state.vBlocksInFlight.lookup it with
      | none => .error (.outOfBounds "*itInFlight->second.second")
      | some entry => .ok { s with
          mapNodeState := s.mapNodeState.insert nodeid { state with
            vBlocksInFlight := state.vBlocksInFlight.erase it
            nBlocksInFlight := state.nBlocksInFlight - 1
            nStallingSince := 0 }
          mapBlocksInFlight := s.mapBlocksInFlight.erase hash
          nQueuedValidatedHeaders :=
            s.nQueuedValidatedHeaders - (if entry.fValidatedHeaders then 1 else 0) }

/-- `MarkBlockAsInFlight`. -/
def markBlockAsInFlight (s : DownloadState) (nodeid : ℤ) (hash : Uint256) (pindex : Option Uint256)
    (nTime : ℤ) : Result DownloadState :=
  if nodeid ∉ s.mapNodeState then .error (.assertion "state != NULL")
  else (s.markBlockAsReceived hash).bind fun s =>
    match s.mapNodeState.lookup nodeid with
    | none => .error (.outOfBounds "*state")
    | some state =>
      let newentry : QueuedBlock :=
        ⟨hash, pindex, nTime, s.nQueuedValidatedHeaders, pindex.isSome⟩
      .ok { s with
        mapNodeState := s.mapNodeState.insert nodeid { state with
          vBlocksInFlight := state.vBlocksInFlight.insert s.nextElement newentry
          nBlocksInFlight := state.nBlocksInFlight + 1 }
        mapBlocksInFlight := s.mapBlocksInFlight.insert hash (nodeid, s.nextElement)
        nQueuedValidatedHeaders :=
          s.nQueuedValidatedHeaders + (if newentry.fValidatedHeaders then 1 else 0)
        nextElement := s.nextElement + 1 }

end DownloadState

/-! ## The accounts -/

/-- The entry at a place of the list of a node. -/
def entryAt (nodes : AList fun _ : ℤ => CNodeState) (p : ℤ × ℕ) : Option QueuedBlock :=
  (nodes.lookup p.1).bind fun state => state.vBlocksInFlight.lookup p.2

theorem entryAt_eq {nodes : AList fun _ : ℤ => CNodeState} {nodeid : ℤ} {state : CNodeState}
    (h : nodes.lookup nodeid = some state) (it : ℕ) :
    entryAt nodes (nodeid, it) = state.vBlocksInFlight.lookup it := by
  rw [entryAt, h, bind_some]

theorem entryAt_insert_ne (nodes : AList fun _ : ℤ => CNodeState) {nodeid : ℤ} (state : CNodeState)
    {p : ℤ × ℕ} (h : p.1 ≠ nodeid) : entryAt (nodes.insert nodeid state) p = entryAt nodes p := by
  rw [entryAt, entryAt, lookup_insert_ne h]

/-- The number of entries of a node with validated headers. -/
def CNodeState.validated (state : CNodeState) : ℕ :=
  state.vBlocksInFlight.total fun entry => if entry.fValidatedHeaders then 1 else 0

namespace DownloadState

/-- A live node lists the block at a place. -/
def Lists (s : DownloadState) (p : ℤ × ℕ) (hash : Uint256) : Prop :=
  ∃ entry, entryAt s.mapNodeState p = some entry ∧ entry.hash = hash

/-- The number of validated entries over all live nodes. -/
def validated (s : DownloadState) : ℕ := s.mapNodeState.total CNodeState.validated

/-- **The map and the lists agree**: the map leads to a place if and only if a live node lists
the block there; the number of entries of a node is the length of its list; and places are
numbered below the next one. -/
structure Listed (s : DownloadState) : Prop where
  inFlight : ∀ hash p, s.mapBlocksInFlight.lookup hash = some p ↔ s.Lists p hash
  counted : ∀ nodeid state, s.mapNodeState.lookup nodeid = some state →
    state.nBlocksInFlight = state.vBlocksInFlight.entries.length
  below : ∀ p entry, entryAt s.mapNodeState p = some entry → p.2 < s.nextElement

variable {s t : DownloadState}

/-- A block is listed at one place only. -/
theorem Listed.eq_of_lists (h : s.Listed) {p q : ℤ × ℕ} {hash : Uint256} (hp : s.Lists p hash)
    (hq : s.Lists q hash) : p = q :=
  some.inj (((h.inFlight hash p).mpr hp).symm.trans ((h.inFlight hash q).mpr hq))

theorem listed_initial : initial.Listed where
  inFlight := fun hash p => by simp [initial, Lists, entryAt]
  counted := fun nodeid state h => by simp [initial] at h
  below := fun p entry h => by simp [initial, entryAt] at h

variable {nodeid : ℤ}

variable (h : s.Listed)

include h

/-- **A node is written anew**, with its list changed at one place: the block there leaves the
list and the map, or enters both. -/
theorem Listed.change {state state' : CNodeState} {it : ℕ} {hash : Uint256} {x : Option QueuedBlock}
    (hstate : s.mapNodeState.lookup nodeid = some state)
    (hnodes : t.mapNodeState = s.mapNodeState.insert nodeid state')
    (hlist : ∀ j, state'.vBlocksInFlight.lookup j =
      if j = it then x else state.vBlocksInFlight.lookup j)
    (hmap : ∀ hash', t.mapBlocksInFlight.lookup hash' =
      if hash' = hash then x.map fun _ => (nodeid, it) else s.mapBlocksInFlight.lookup hash')
    (hx : ∀ e, x = some e → e.hash = hash ∧ it < t.nextElement)
    (hold : ∀ e, state.vBlocksInFlight.lookup it = some e → e.hash = hash)
    (honly : ∀ p, s.Lists p hash → p = (nodeid, it))
    (hcount : state'.nBlocksInFlight = state'.vBlocksInFlight.entries.length)
    (hqueued : t.nQueuedValidatedHeaders - state'.validated =
      s.nQueuedValidatedHeaders - state.validated) (hnext : s.nextElement ≤ t.nextElement) :
    t.Listed ∧ t.nQueuedValidatedHeaders - t.validated = s.nQueuedValidatedHeaders - s.validated := by
  have hplaces : ∀ p, entryAt t.mapNodeState p =
      if p = (nodeid, it) then x else entryAt s.mapNodeState p := by
    rintro ⟨id, j⟩
    rw [hnodes]
    by_cases hid : id = nodeid
    · subst hid
      rw [entryAt_eq (lookup_insert _), hlist, entryAt_eq hstate]
      simp
    · rw [entryAt_insert_ne _ _ hid]
      simp [hid]
  refine ⟨⟨fun hash' p => ?_, fun id st hst => ?_, fun p e he => ?_⟩, ?_⟩
  · rw [hmap]
    simp only [Lists, hplaces]
    by_cases hh : hash' = hash
    · subst hh
      rw [if_pos rfl, map_eq_some_iff]
      constructor
      · rintro ⟨e, he, rfl⟩
        exact ⟨e, by rw [if_pos rfl, he], (hx e he).1⟩
      · rintro ⟨e, he, heq⟩
        split at he
        · next hp => exact ⟨e, he, hp.symm⟩
        · next hp => exact absurd (honly p ⟨e, he, heq⟩) hp
    · rw [if_neg hh, h.inFlight]
      by_cases hp : p = (nodeid, it)
      · subst hp
        refine ⟨?_, ?_⟩ <;> rintro ⟨e, he, rfl⟩
        · exact absurd (hold e (by rwa [entryAt_eq hstate] at he)) hh
        · exact absurd (hx e (by rwa [if_pos rfl] at he)).1 hh
      · simp only [if_neg hp]
        rfl
  · rw [hnodes] at hst
    by_cases hid : id = nodeid
    · subst hid
      rw [lookup_insert] at hst
      cases hst
      exact hcount
    · exact h.counted id st (by rwa [lookup_insert_ne hid] at hst)
  · rw [hplaces] at he
    split at he
    · next hp =>
      rw [hp]
      exact (hx e he).2
    · exact (h.below p e he).trans_le hnext
  · have hold := total_erase CNodeState.validated hstate
    rw [validated, hnodes, total_insert, validated]
    omega

/-- **`InitializeNode`** adds a node without entries. -/
theorem Listed.initializeNode (nodeid : ℤ) :
    (s.initializeNode nodeid).Listed ∧ (s.initializeNode nodeid).validated = s.validated ∧
      (s.initializeNode nodeid).nQueuedValidatedHeaders = s.nQueuedValidatedHeaders := by
  unfold DownloadState.initializeNode
  split
  · exact ⟨h, rfl, rfl⟩
  · next hnew =>
    have hnone : s.mapNodeState.lookup nodeid = none := lookup_eq_none.mpr hnew
    have hentry : ∀ p, entryAt (s.mapNodeState.insert nodeid .initial) p =
        entryAt s.mapNodeState p := by
      rintro ⟨id, it⟩
      by_cases hid : id = nodeid
      · subst hid
        simp [entryAt, hnone, CNodeState.initial]
      · exact entryAt_insert_ne _ _ hid
    refine ⟨⟨fun hash p => ?_, fun id state hst => ?_, fun p entry he => ?_⟩, ?_, rfl⟩
    · simp only [Lists, hentry]
      exact h.inFlight hash p
    · rw [lookup_insert_eq_ite] at hst
      split at hst
      · cases hst
        rfl
      · exact h.counted id state hst
    · exact h.below p entry (by rwa [hentry] at he)
    · rw [validated, total_insert_new _ hnone]
      simp [validated, CNodeState.validated, CNodeState.initial, total]

/-- **`FinalizeNode`** takes the entries of the node out of the map and the lists, and leaves
the number of validated entries as it was. -/
theorem Listed.finalizeNode {state : CNodeState}
    (hstate : s.mapNodeState.lookup nodeid = some state) :
    ∃ b t, s.finalizeNode nodeid = .ok (b, t) ∧ t.Listed ∧
      t.validated + state.validated = s.validated ∧
      t.nQueuedValidatedHeaders = s.nQueuedValidatedHeaders := by
  have hplaces : ∀ p entry, entryAt (s.mapNodeState.erase nodeid) p = some entry ↔
      entryAt s.mapNodeState p = some entry ∧ p.1 ≠ nodeid := by
    intro p entry
    rw [entryAt, entryAt, lookup_erase_eq_ite]
    split <;> simp [*]
  rw [DownloadState.finalizeNode, hstate]
  refine ⟨_, _, rfl, ⟨fun hash p => ?_, fun id st hst => ?_, fun p entry he => ?_⟩, ?_, rfl⟩
  · -- the hashes that are erased are those the node lists
    have hkeys : hash ∈ state.vBlocksInFlight.entries.map (fun entry => entry.2.hash) ↔
        ∃ it, s.Lists (nodeid, it) hash := by
      simp only [List.mem_map, Lists, entryAt_eq hstate]
      constructor
      · rintro ⟨e, he, rfl⟩
        exact ⟨e.1, e.2, mem_lookup_iff.mpr he, rfl⟩
      · rintro ⟨it, entry, he, rfl⟩
        exact ⟨⟨it, entry⟩, mem_lookup_iff.mp he, rfl⟩
    have hlists : Lists { s with mapNodeState := s.mapNodeState.erase nodeid } p hash ↔
        s.Lists p hash ∧ p.1 ≠ nodeid := by
      simp only [Lists, hplaces]
      tauto
    refine Iff.trans ?_ hlists.symm
    rw [OwnerIndex.lookup_eraseAll]
    by_cases hk : hash ∈ state.vBlocksInFlight.entries.map fun entry => entry.2.hash
    · rw [if_pos hk]
      refine ⟨fun hc => (by cases hc), fun hc => ?_⟩
      obtain ⟨it, hit⟩ := hkeys.mp hk
      exact absurd (congrArg Prod.fst (h.eq_of_lists hc.1 hit)) hc.2
    · rw [if_neg hk, h.inFlight]
      refine ⟨fun hl => ⟨hl, fun hp => hk (hkeys.mpr ⟨p.2, ?_⟩)⟩, fun hl => hl.1⟩
      rw [← hp]
      exact hl
  · rw [lookup_erase_eq_ite] at hst
    split at hst
    · cases hst
    · exact h.counted id st hst
  · exact h.below p entry ((hplaces p entry).mp he).1
  · have := total_erase CNodeState.validated hstate
    simp only [validated]
    omega

/-- **`MarkBlockAsReceived`** takes the entry of the block out everywhere. -/
theorem Listed.markBlockAsReceived (hash : Uint256) :
    ∃ t, s.markBlockAsReceived hash = .ok t ∧
      (∀ nodeid ∈ s.mapNodeState, nodeid ∈ t.mapNodeState) ∧
      t.mapBlocksInFlight.lookup hash = none ∧ t.Listed ∧
      t.nQueuedValidatedHeaders - t.validated = s.nQueuedValidatedHeaders - s.validated := by
  unfold DownloadState.markBlockAsReceived
  cases hin : s.mapBlocksInFlight.lookup hash with
  | none => exact ⟨s, rfl, fun _ hid => hid, hin, h, rfl⟩
  | some place =>
    obtain ⟨nodeid, it⟩ := place
    obtain ⟨entry, hentry, hhash⟩ := (h.inFlight hash _).mp hin
    obtain ⟨state, hstate, hit⟩ := bind_eq_some_iff.mp hentry
    dsimp only at hstate hit
    simp only [hstate, hit]
    refine ⟨_, rfl, fun id hid => (mem_insert _).mpr (.inr hid), lookup_erase .., ?_⟩
    refine h.change hstate rfl lookup_erase_eq_ite lookup_erase_eq_ite
      (fun _ he => by cases he) (fun e he => ?_)
      (fun p hp => h.eq_of_lists hp ⟨entry, hentry, hhash⟩) ?_ ?_ le_rfl
    · rw [hit] at he
      cases he
      exact hhash
    · have hlen := total_erase (fun _ => 1) hit
      rw [← length_eq_total, ← length_eq_total] at hlen
      have hcount := h.counted _ _ hstate
      dsimp only
      omega
    · have hnode : state.validated = _ := total_erase _ hit
      rw [hnode]
      dsimp only [CNodeState.validated]
      split_ifs <;> omega

/-- **`MarkBlockAsInFlight`** takes the entry of the block out everywhere, and enters it at the
node. -/
theorem Listed.markBlockAsInFlight (hlive : nodeid ∈ s.mapNodeState) (hash : Uint256)
    (pindex : Option Uint256) (nTime : ℤ) :
    ∃ t, s.markBlockAsInFlight nodeid hash pindex nTime = .ok t ∧ t.Listed ∧
      t.nQueuedValidatedHeaders - t.validated = s.nQueuedValidatedHeaders - s.validated := by
  obtain ⟨u, hu, hnodes, hfree, hlisted, hqueued⟩ := h.markBlockAsReceived hash
  obtain ⟨state, hstate⟩ := isSome_iff_exists.mp (lookup_isSome.mpr (hnodes nodeid hlive))
  have hfresh : state.vBlocksInFlight.lookup u.nextElement = none := by
    rw [eq_none_iff_forall_ne_some]
    intro e he
    have := hlisted.below (nodeid, u.nextElement) e (by rw [entryAt_eq hstate, he])
    exact absurd this (lt_irrefl _)
  unfold DownloadState.markBlockAsInFlight
  rw [if_neg (not_not.mpr hlive), hu, Except.ok_bind, ← hqueued]
  simp only [hstate]
  refine ⟨_, rfl, hlisted.change hstate rfl lookup_insert_eq_ite lookup_insert_eq_ite
    ?_ (fun e he => ?_) (fun p hp => ?_) ?_ ?_ (Nat.le_succ _)⟩
  · rintro e ⟨⟩
    exact ⟨rfl, Nat.lt_succ_self _⟩
  · rw [hfresh] at he
    cases he
  · rw [← hlisted.inFlight, hfree] at hp
    cases hp
  · have hcount := hlisted.counted _ _ hstate
    dsimp only
    rw [length_eq_total, total_insert_new _ hfresh, ← length_eq_total]
    omega
  · dsimp only [CNodeState.validated]
    rw [total_insert_new _ hfresh]
    split_ifs <;> omega

end DownloadState

/-! ## Every history -/

/-- A call, with the time `GetTimeMicros` gives. -/
inductive DownloadCall
  | initializeNode (nodeid : ℤ)
  | finalizeNode (nodeid : ℤ)
  | markBlockAsReceived (hash : Uint256)
  | markBlockAsInFlight (nodeid : ℤ) (hash : Uint256) (pindex : Option Uint256) (nTime : ℤ)

namespace DownloadCall

/-- The state after a call. -/
def run (s : DownloadState) : DownloadCall → Result DownloadState
  | .initializeNode nodeid => .ok (s.initializeNode nodeid)
  | .finalizeNode nodeid => (s.finalizeNode nodeid).map (·.2)
  | .markBlockAsReceived hash => s.markBlockAsReceived hash
  | .markBlockAsInFlight nodeid hash pindex nTime => s.markBlockAsInFlight nodeid hash pindex nTime

/-- The call is for a live node. -/
def Live (s : DownloadState) : DownloadCall → Prop
  | .finalizeNode nodeid => nodeid ∈ s.mapNodeState
  | .markBlockAsInFlight nodeid _ _ _ => nodeid ∈ s.mapNodeState
  | _ => True

instance (s : DownloadState) : (call : DownloadCall) → Decidable (call.Live s)
  | .initializeNode _ | .markBlockAsReceived _ => .isTrue trivial
  | .finalizeNode nodeid | .markBlockAsInFlight nodeid _ _ _ =>
    inferInstanceAs (Decidable (nodeid ∈ s.mapNodeState))

/-- The validated entries that leave with a node. -/
def forgotten (s : DownloadState) : DownloadCall → ℕ
  | .finalizeNode nodeid => ((s.mapNodeState.lookup nodeid).map (·.validated)).getD 0
  | _ => 0

end DownloadCall

/-- **The histories of the accounts**, with the number of validated entries that left with their
nodes. -/
inductive DownloadRun : DownloadState → ℕ → Prop
  | start : DownloadRun .initial 0
  | step {s t : DownloadState} {forgotten : ℕ} (call : DownloadCall) (h : DownloadRun s forgotten)
      (hlive : call.Live s) (ht : call.run s = .ok t) :
      DownloadRun t (forgotten + call.forgotten s)

/-- The state and the number after some calls for live nodes. -/
def DownloadCall.runAll : List DownloadCall → DownloadState → ℕ → Option (DownloadState × ℕ)
  | [], s, forgotten => some (s, forgotten)
  | call :: calls, s, forgotten =>
    if call.Live s then
      (call.run s).toOption.bind fun t => runAll calls t (forgotten + call.forgotten s)
    else none

theorem DownloadRun.runAll {calls : List DownloadCall} {s t : DownloadState} {m n : ℕ}
    (h : DownloadRun s m) (ht : DownloadCall.runAll calls s m = some (t, n)) : DownloadRun t n := by
  induction calls generalizing s m with
  | nil =>
    cases ht
    exact h
  | cons call calls ih =>
    rw [DownloadCall.runAll] at ht
    split at ht
    · rename_i hlive
      cases hrun : call.run s with
      | error e =>
        rw [hrun] at ht
        cases ht
      | ok u =>
        rw [hrun] at ht
        exact ih (h.step call hlive hrun) ht
    · cases ht

/-- **One call** succeeds; the number of validated entries is off by what has been forgotten. -/
theorem DownloadState.Listed.run {s : DownloadState} (h : s.Listed) (call : DownloadCall)
    (hlive : call.Live s) :
    ∃ t, call.run s = .ok t ∧ t.Listed ∧ t.nQueuedValidatedHeaders - t.validated =
      s.nQueuedValidatedHeaders - s.validated + call.forgotten s := by
  cases call with
  | initializeNode nodeid =>
    obtain ⟨ht, hvalidated, hqueued⟩ := h.initializeNode nodeid
    exact ⟨_, rfl, ht, by rw [hvalidated, hqueued]; simp [DownloadCall.forgotten]⟩
  | finalizeNode nodeid =>
    obtain ⟨state, hstate⟩ := isSome_iff_exists.mp (lookup_isSome.mpr hlive)
    obtain ⟨b, t, ht, hlisted, hvalidated, hqueued⟩ := h.finalizeNode hstate
    refine ⟨t, by rw [DownloadCall.run, ht]; rfl, hlisted, ?_⟩
    simp only [DownloadCall.forgotten, hstate, map_some, getD_some]
    omega
  | markBlockAsReceived hash =>
    obtain ⟨t, ht, -, -, hlisted, hqueued⟩ := h.markBlockAsReceived hash
    exact ⟨t, ht, hlisted, by rw [hqueued]; simp [DownloadCall.forgotten]⟩
  | markBlockAsInFlight nodeid hash pindex nTime =>
    obtain ⟨t, ht, hlisted, hqueued⟩ := h.markBlockAsInFlight hlive hash pindex nTime
    exact ⟨t, ht, hlisted, by rw [hqueued]; simp [DownloadCall.forgotten]⟩

theorem DownloadRun.listed {s : DownloadState} {forgotten : ℕ} (h : DownloadRun s forgotten) :
    s.Listed ∧ s.nQueuedValidatedHeaders - s.validated = forgotten := by
  induction h with
  | start => exact ⟨DownloadState.listed_initial, by simp [DownloadState.initial,
      DownloadState.validated, AList.total]⟩
  | step call _ hlive ht ih =>
    obtain ⟨t', ht', hlisted, hqueued⟩ := ih.1.run call hlive
    obtain rfl := Except.ok.inj (ht.symm.trans ht')
    refine ⟨hlisted, ?_⟩
    rw [hqueued, ih.2]
    rfl

/-- **The accounts are right**: the map leads from a hash to a place exactly if this is the one
place where a live node lists the block; the number of blocks of a node is the length of its
list; and the number of validated entries is that over all live nodes. -/
structure DownloadState.Accounted (s : DownloadState) : Prop where
  inFlight : ∀ hash p, s.mapBlocksInFlight.lookup hash = some p ↔
    s.Lists p hash ∧ ∀ q, s.Lists q hash → q = p
  nBlocksInFlight : ∀ nodeid state, s.mapNodeState.lookup nodeid = some state →
    state.nBlocksInFlight = state.vBlocksInFlight.entries.length
  nQueuedValidatedHeaders : s.nQueuedValidatedHeaders = s.validated

/-- **In-flight accounting.** After any calls for live nodes the next such call succeeds; and
the accounts are right if and only if no node was finalized that listed an entry with validated
headers. -/
theorem downloadRun_accounted_iff {s : DownloadState} {forgotten : ℕ}
    (h : DownloadRun s forgotten) :
    (∀ call : DownloadCall, call.Live s → ∃ t, call.run s = .ok t) ∧
      (s.Accounted ↔ forgotten = 0) := by
  obtain ⟨hlisted, hqueued⟩ := h.listed
  refine ⟨fun call hlive => ?_, fun hacc => ?_, fun hzero => ⟨fun hash p => ?_, hlisted.counted, ?_⟩⟩
  · obtain ⟨t, ht, -⟩ := hlisted.run call hlive
    exact ⟨t, ht⟩
  · have := hacc.nQueuedValidatedHeaders
    omega
  · rw [hlisted.inFlight]
    exact ⟨fun hp => ⟨hp, fun q hq => hlisted.eq_of_lists hq hp⟩, fun hp => hp.1⟩
  · omega

/-- Two blocks are asked of a node, one without a header; a second node is asked for the other one,
and the first node leaves. -/
def askedAgain : List DownloadCall :=
  [.initializeNode 1, .initializeNode 2,
    .markBlockAsInFlight 1 (BaseUint.ofNat 5) (some (BaseUint.ofNat 5)) 10,
    .markBlockAsInFlight 1 (BaseUint.ofNat 6) none 11,
    .markBlockAsInFlight 2 (BaseUint.ofNat 5) (some (BaseUint.ofNat 5)) 12, .finalizeNode 1]

/-- The block is in flight from the second node, and the accounts are right. -/
theorem downloadRun_accounted_askedAgain :
    ∃ s, DownloadCall.runAll askedAgain .initial 0 = some (s, 0) ∧ s.Accounted ∧
      s.mapBlocksInFlight.lookup (BaseUint.ofNat 5) = some (2, 2) ∧
      s.mapBlocksInFlight.lookup (BaseUint.ofNat 6) = none ∧ s.nQueuedValidatedHeaders = 1 := by
  obtain ⟨⟨s, n⟩, hrun, rfl, hrest⟩ : ∃ r, DownloadCall.runAll askedAgain .initial 0 = some r ∧
      r.2 = 0 ∧
      r.1.mapBlocksInFlight.lookup (BaseUint.ofNat 5) = some (2, 2) ∧
      r.1.mapBlocksInFlight.lookup (BaseUint.ofNat 6) = none ∧
      r.1.nQueuedValidatedHeaders = 1 := by
    decide +kernel
  exact ⟨s, hrun, (downloadRun_accounted_iff (DownloadRun.start.runAll hrun)).2.mpr rfl, hrest⟩

/-- **A node that leaves with a block outstanding** stays in the number of validated entries. -/
theorem downloadRun_not_accounted : ¬ ∀ s forgotten, DownloadRun s forgotten → s.Accounted := by
  intro hall
  obtain ⟨⟨s, n⟩, hrun, hoff⟩ : ∃ r, DownloadCall.runAll [.initializeNode 1,
      .markBlockAsInFlight 1 (BaseUint.ofNat 5) (some (BaseUint.ofNat 5)) 10,
      .finalizeNode 1] .initial 0 = some r ∧ r.1.nQueuedValidatedHeaders ≠ r.1.validated := by
    decide +kernel
  exact hoff (hall s n (DownloadRun.start.runAll hrun)).nQueuedValidatedHeaders

end Passion
