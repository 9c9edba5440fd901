import Passion.Common.OrderedMap
import Passion.Common.Tables
import Passion.Primitives.Transaction

/-!
# Orphan transactions

The maps of `net_processing.cpp` for transactions whose inputs are not known yet:
`mapOrphanTransactions` by id, and `mapOrphanTransactionsByPrev`, which leads from the id of a
missing transaction to the orphans that wait for it. `AddOrphanTx`, `EraseOrphanTx`,
`EraseOrphansFor` and `LimitOrphanTxSize`, which evicts orphans by random choice, keep the second
map the exact inverse of the first.
-/

namespace Passion

open OrderedMap List

/-- `COrphanTx`. -/
structure COrphanTx where
  tx : CTransaction
  fromPeer : ℤ

/-- The two maps. -/
structure OrphanPool where
  mapOrphanTransactions : OrderedMap Uint256 COrphanTx
  mapOrphanTransactionsByPrev : AList fun _ : Uint256 => Finset Uint256

/-- The transactions the inputs of an orphan come from. -/
def COrphanTx.prevs (o : COrphanTx) : List Uint256 := o.tx.vin.map (·.prevout.hash)

namespace OrphanPool

/-- The maps at the start of the node. -/
def empty : OrphanPool := ⟨.empty, ∅⟩

/-- `mapOrphanTransactions.size()`. -/
def size (s : OrphanPool) : ℕ := s.mapOrphanTransactions.entries.length

/-- `AddOrphanTx`: whether the transaction was stored. -/
def addOrphanTx (H : Hashing) (s : OrphanPool) (tx : CTransaction) (peer : ℤ) : Bool × OrphanPool :=
  let hash := tx.getHash H
  if (s.mapOrphanTransactions.find? hash).isSome then (false, s)
  else if tx.getTotalSize > 5000 then (false, s)
  else (true, {
    mapOrphanTransactions := s.mapOrphanTransactions.insert hash ⟨tx, peer⟩
    mapOrphanTransactionsByPrev := (COrphanTx.prevs ⟨tx, peer⟩).foldl (SetTable.put hash)
      s.mapOrphanTransactionsByPrev })

/-- `EraseOrphanTx`. -/
def eraseOrphanTx (s : OrphanPool) (hash : Uint256) : OrphanPool :=
  match s.mapOrphanTransactions.find? hash with
  | none => s
  | some it => {
    mapOrphanTransactions := s.mapOrphanTransactions.erase hash
    mapOrphanTransactionsByPrev :=
      it.prevs.foldl (SetTable.drop hash) s.mapOrphanTransactionsByPrev }

/-- `EraseOrphansFor`. The iterator is moved on before an orphan is erased, so the loop meets
every entry there was. -/
def eraseOrphansFor (H : Hashing) (s : OrphanPool) (peer : ℤ) : OrphanPool :=
  s.mapOrphanTransactions.entries.foldl (fun s e =>
    if e.2.fromPeer = peer then s.eraseOrphanTx (e.2.tx.getHash H) else s) s

/-- The orphan that is evicted for a random hash: the first one from the hash on, or the first
of all. -/
def victim (s : OrphanPool) (randomhash : Uint256) : Option (Uint256 × COrphanTx) :=
  (s.mapOrphanTransactions.entries.find? fun e => decide (randomhash ≤ e.1)).or
    s.mapOrphanTransactions.entries.head?

/-- The loop of `LimitOrphanTxSize` for at most `fuel` turns, with the random hashes it draws.
It has no result if it needs more turns, or if it looks at an entry of an empty map. -/
def limitLoop (nMaxOrphans : ℕ) (rand : ℕ → Uint256) : ℕ → ℕ → OrphanPool → Option (ℕ × OrphanPool)
  | 0, _, _ => none
  | fuel + 1, nEvicted, s =>
    if s.size > nMaxOrphans then
      match s.victim (rand nEvicted) with
      | none => none
      | some it => limitLoop nMaxOrphans rand fuel (nEvicted + 1) (s.eraseOrphanTx it.1)
    else some (nEvicted, s)

/-- `LimitOrphanTxSize`: the number of evicted orphans. -/
def limitOrphanTxSize (s : OrphanPool) (nMaxOrphans : ℕ) (rand : ℕ → Uint256) :
    Option (ℕ × OrphanPool) :=
  limitLoop nMaxOrphans rand (s.size + 1) 0 s

end OrphanPool

/-! ## The inverse -/

/-- **The invariant of the maps**: an orphan is stored under its id, and the second map leads
from a transaction to the orphans that have an input from it, with no empty sets. -/
structure OrphanPool.Indexed (H : Hashing) (s : OrphanPool) : Prop where
  keyed : ∀ e ∈ s.mapOrphanTransactions.entries, e.2.tx.getHash H = e.1
  inverse : ∀ prev hash, hash ∈ SetTable.owners s.mapOrphanTransactionsByPrev prev ↔
    ∃ o, (hash, o) ∈ s.mapOrphanTransactions.entries ∧ prev ∈ o.prevs
  noEmpty : SetTable.NoEmpty s.mapOrphanTransactionsByPrev

variable {H : Hashing} {s : OrphanPool}

namespace OrphanPool.Indexed

theorem empty : OrphanPool.empty.Indexed H where
  keyed := fun _ he => by cases he
  inverse := fun _ _ => by simp [SetTable.owners, OrphanPool.empty, OrderedMap.empty]
  noEmpty := fun _ _ h => by simp [OrphanPool.empty] at h

theorem addOrphanTx (h : s.Indexed H) (tx : CTransaction) (peer : ℤ) :
    (s.addOrphanTx H tx peer).2.Indexed H := by
  unfold OrphanPool.addOrphanTx
  dsimp only
  split
  · exact h
  · next hnew =>
    split
    · exact h
    · have hnone : ∀ o, (tx.getHash H, o) ∉ s.mapOrphanTransactions.entries :=
        find?_eq_none_iff.mp (by simpa using hnew)
      refine ⟨fun e he => ?_, fun prev hash => ?_, h.noEmpty.foldl_put _⟩
      · rcases mem_insert.mp he with rfl | ⟨he, -⟩
        · rfl
        · exact h.keyed e he
      · rw [SetTable.mem_owners_foldl_put, h.inverse]
        simp only [mem_insert, Prod.mk.injEq]
        constructor
        · rintro (⟨o, ho, hprev⟩ | ⟨rfl, hprev⟩)
          · exact ⟨o, .inr ⟨ho, fun heq => hnone o (heq ▸ ho)⟩, hprev⟩
          · exact ⟨_, .inl ⟨rfl, rfl⟩, hprev⟩
        · rintro ⟨o, ⟨rfl, rfl⟩ | ⟨ho, -⟩, hprev⟩
          · exact .inr ⟨rfl, hprev⟩
          · exact .inl ⟨o, ho, hprev⟩

theorem eraseOrphanTx (h : s.Indexed H) (hash : Uint256) : (s.eraseOrphanTx hash).Indexed H := by
  unfold OrphanPool.eraseOrphanTx
  cases hit : s.mapOrphanTransactions.find? hash with
  | none => exact h
  | some it =>
    have hmem := find?_eq_some_iff.mp hit
    refine ⟨fun e he => h.keyed e (mem_erase.mp he).1, fun prev hash' => ?_, h.noEmpty.foldl_drop _⟩
    rw [SetTable.mem_owners_foldl_drop, h.inverse]
    simp only [mem_erase]
    constructor
    · rintro ⟨⟨o, ho, hprev⟩, hnot⟩
      refine ⟨o, ⟨ho, fun heq => hnot ⟨heq, ?_⟩⟩, hprev⟩
      subst heq
      rwa [eq_of_mem ho hmem] at hprev
    · rintro ⟨o, ⟨ho, hne⟩, hprev⟩
      exact ⟨⟨o, ho, hprev⟩, fun heq => hne heq.1⟩

theorem eraseOrphansFor (h : s.Indexed H) (peer : ℤ) : (s.eraseOrphansFor H peer).Indexed H := by
  refine foldlRecOn _ _ h fun t ht e _ => ?_
  split
  · exact ht.eraseOrphanTx _
  · exact ht

end OrphanPool.Indexed

/-! ## Eviction -/

namespace OrphanPool

variable {it : Uint256 × COrphanTx}

theorem victim_mem {randomhash : Uint256} (h : s.victim randomhash = some it) :
    it ∈ s.mapOrphanTransactions.entries := by
  rcases Option.or_eq_some_iff.mp h with h | ⟨-, h⟩
  · exact mem_of_find?_eq_some h
  · exact mem_of_head? h

theorem exists_victim (h : 0 < s.size) (randomhash : Uint256) :
    ∃ it, s.victim randomhash = some it := by
  obtain ⟨e, es, he⟩ := exists_cons_of_length_pos h
  refine Option.isSome_iff_exists.mp ?_
  rw [victim, he, Option.isSome_or, head?_cons, Option.isSome_some, Bool.or_true]

/-- Evicting a stored orphan leaves the others. -/
theorem erase_of_mem (h : it ∈ s.mapOrphanTransactions.entries) :
    (s.eraseOrphanTx it.1).size + 1 = s.size ∧
      (s.eraseOrphanTx it.1).mapOrphanTransactions.entries.Sublist
        s.mapOrphanTransactions.entries := by
  have hfind : s.mapOrphanTransactions.find? it.1 = some it.2 :=
    find?_eq_some_iff.mpr h
  rw [eraseOrphanTx, hfind]
  exact ⟨length_erase h, filter_sublist⟩

/-- **What a run of the loop does**: with a turn for each orphan it ends, with at most
`nMaxOrphans` of the orphans left and the count of the others added to `nEvicted`. -/
theorem limitLoop_eq_some (nMaxOrphans : ℕ) (rand : ℕ → Uint256) {fuel : ℕ} (nEvicted : ℕ)
    (h : s.Indexed H) (hfuel : s.size < fuel) :
    ∃ n t, limitLoop nMaxOrphans rand fuel nEvicted s = some (nEvicted + n, t) ∧ t.Indexed H ∧
      t.size ≤ nMaxOrphans ∧ n + t.size = s.size ∧
      t.mapOrphanTransactions.entries.Sublist s.mapOrphanTransactions.entries := by
  induction fuel generalizing s nEvicted with
  | zero => omega
  | succ fuel ih =>
    rw [limitLoop]
    split
    · next hmore =>
      obtain ⟨it, hit⟩ := exists_victim (s := s) (by omega) (rand nEvicted)
      obtain ⟨hsize, hsub⟩ := erase_of_mem (victim_mem hit)
      obtain ⟨n, t, hrun, hindexed, hle, hcount, hsub'⟩ :=
        ih (nEvicted + 1) (h.eraseOrphanTx it.1) (by omega)
      refine ⟨n + 1, t, ?_, hindexed, hle, by omega, hsub'.trans hsub⟩
      rw [hit, ← Nat.add_assoc, Nat.add_right_comm]
      exact hrun
    · exact ⟨0, s, rfl, h, by omega, by omega, Sublist.refl _⟩

end OrphanPool

/-! ## Every history -/

/-- A call. -/
inductive OrphanCall
  | add (tx : CTransaction) (peer : ℤ)
  | erase (hash : Uint256)
  | eraseFor (peer : ℤ)
  | limit (nMaxOrphans : ℕ) (rand : ℕ → Uint256)

/-- The maps after a call, if it ends. -/
def OrphanCall.run (H : Hashing) (s : OrphanPool) : OrphanCall → Option OrphanPool
  | .add tx peer => some (s.addOrphanTx H tx peer).2
  | .erase hash => some (s.eraseOrphanTx hash)
  | .eraseFor peer => some (s.eraseOrphansFor H peer)
  | .limit nMaxOrphans rand => (s.limitOrphanTxSize nMaxOrphans rand).map (·.2)

/-- **One call** ends and keeps the invariant. -/
theorem OrphanPool.Indexed.run {s : OrphanPool} (h : s.Indexed H) (call : OrphanCall) :
    ∃ t, call.run H s = some t ∧ t.Indexed H := by
  cases call with
  | add tx peer => exact ⟨_, rfl, h.addOrphanTx tx peer⟩
  | erase hash => exact ⟨_, rfl, h.eraseOrphanTx hash⟩
  | eraseFor peer => exact ⟨_, rfl, h.eraseOrphansFor peer⟩
  | limit nMaxOrphans rand =>
    obtain ⟨n, t, hrun, ht, -⟩ := limitLoop_eq_some nMaxOrphans rand 0 h (Nat.lt_succ_self _)
    exact ⟨t, by rw [OrphanCall.run, limitOrphanTxSize, hrun]; rfl, ht⟩

theorem OrphanPool.Indexed.runs {s : OrphanPool} (h : s.Indexed H) (calls : List OrphanCall) :
    ∃ t, calls.foldlM (OrphanCall.run H) s = some t ∧ t.Indexed H := by
  induction calls generalizing s with
  | nil => exact ⟨s, rfl, h⟩
  | cons call calls ih =>
    obtain ⟨t, ht, hindexed⟩ := h.run call
    obtain ⟨u, hu, hindexed'⟩ := ih hindexed
    exact ⟨u, by rw [foldlM_cons, ht]; exact hu, hindexed'⟩

/-- **The orphan index is an exact inverse.** After any calls, which all end, the second map
leads from a transaction to an orphan if and only if the orphan is stored and has an input from
the transaction, and holds no empty set; and `LimitOrphanTxSize`, whatever it draws, then ends
with at most `nMaxOrphans` of the orphans left and returns how many went. -/
theorem orphanIndex_inverse (H : Hashing) (calls : List OrphanCall) :
    ∃ s, calls.foldlM (OrphanCall.run H) OrphanPool.empty = some s ∧
      (∀ prev hash, (∃ set, s.mapOrphanTransactionsByPrev.lookup prev = some set ∧ hash ∈ set) ↔
        ∃ o, s.mapOrphanTransactions.find? hash = some o ∧
          ∃ txin ∈ o.tx.vin, txin.prevout.hash = prev) ∧
      (∀ prev set, s.mapOrphanTransactionsByPrev.lookup prev = some set → set.Nonempty) ∧
      ∀ nMaxOrphans rand, ∃ nEvicted t,
        s.limitOrphanTxSize nMaxOrphans rand = some (nEvicted, t) ∧ t.size ≤ nMaxOrphans ∧
          nEvicted + t.size = s.size ∧
          t.mapOrphanTransactions.entries.Sublist s.mapOrphanTransactions.entries := by
  obtain ⟨s, hs, h⟩ := OrphanPool.Indexed.empty.runs calls
  refine ⟨s, hs, fun prev hash => ?_, h.noEmpty, fun nMaxOrphans rand => ?_⟩
  · rw [SetTable.exists_lookup_iff, h.inverse]
    simp [find?_eq_some_iff, COrphanTx.prevs]
  · obtain ⟨n, t, hrun, -, hle, hcount, hsub⟩ :=
      OrphanPool.limitLoop_eq_some nMaxOrphans rand 0 h (Nat.lt_succ_self _)
    rw [Nat.zero_add] at hrun
    exact ⟨n, t, hrun, hle, hcount, hsub⟩

end Passion
