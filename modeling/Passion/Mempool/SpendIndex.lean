import Passion.Common.Runs
import Passion.Mempool.Pool

/-!
# What the bookkeeping of packages leaves alone

The functions that keep links and statistics in step change nothing else: the transactions of
the pool, with their fees and times, the indexes of what they spend and the deltas stay as they
are. This is said once here, for each of the functions.
-/

namespace Passion

open Except Option Traversal

variable {D : Type}

namespace PoolEntry

/-- The fields of an entry that do not depend on its relatives. -/
def base (e : PoolEntry D) : CTxMemPoolEntry D × ℤ × Bool :=
  (e.toCTxMemPoolEntry, e.nTime, e.spendsCoinbaseOrCoinstake)

theorem updateDescendantState_base (e : PoolEntry D) (size : ℤ) (fee : Int64) (count : ℤ) :
    (e.updateDescendantState size fee count).Ensures fun e' => e'.base = e.base := by
  unfold updateDescendantState
  split_ifs <;> first | exact trivial | rfl

theorem updateAncestorState_base (e : PoolEntry D) (size : ℤ) (fee : Int64) (count sigOps : ℤ) :
    (e.updateAncestorState size fee count sigOps).Ensures fun e' => e'.base = e.base := by
  unfold updateAncestorState
  split_ifs <;> first | exact trivial | rfl

end PoolEntry

namespace TxMemPool

/-- **Only links and statistics differ.** -/
structure OnlyPackages (p q : TxMemPool D) : Prop where
  base : ∀ it, (q.mapTx.lookup it).map PoolEntry.base = (p.mapTx.lookup it).map PoolEntry.base
  mapNextTx : q.mapNextTx = p.mapNextTx
  mapSaplingNullifiers : q.mapSaplingNullifiers = p.mapSaplingNullifiers
  mapDeltas : q.mapDeltas = p.mapDeltas
  nCheckFrequency : q.nCheckFrequency = p.nCheckFrequency

namespace OnlyPackages

variable {p q r : TxMemPool D}

theorem refl (p : TxMemPool D) : OnlyPackages p p := ⟨fun _ => rfl, rfl, rfl, rfl, rfl⟩

theorem trans (h : OnlyPackages p q) (h' : OnlyPackages q r) : OnlyPackages p r where
  base it := (h'.base it).trans (h.base it)
  mapNextTx := h'.mapNextTx.trans h.mapNextTx
  mapSaplingNullifiers := h'.mapSaplingNullifiers.trans h.mapSaplingNullifiers
  mapDeltas := h'.mapDeltas.trans h.mapDeltas
  nCheckFrequency := h'.nCheckFrequency.trans h.nCheckFrequency

theorem mem_iff (h : OnlyPackages p q) (it : Uint256) : it ∈ q.mapTx ↔ it ∈ p.mapTx := by
  have hbase := congrArg isSome (h.base it)
  simp only [isSome_map] at hbase
  rw [← AList.lookup_isSome, ← AList.lookup_isSome, hbase]

/-- What is read from the fields that do not depend on relatives is the same. -/
theorem map_base {α : Type} (h : OnlyPackages p q) (f : CTxMemPoolEntry D × ℤ × Bool → α)
    (it : Uint256) : (q.mapTx.lookup it).map (fun e => f e.base) =
      (p.mapTx.lookup it).map fun e => f e.base := by
  have hbase := congrArg (Option.map f) (h.base it)
  rw [map_map, map_map] at hbase
  exact hbase

/-- A loop over functions that change only links and statistics. -/
theorem foldlM {α : Type} {f : TxMemPool D → α → Result (TxMemPool D)}
    (hf : ∀ p a, (f p a).Ensures (OnlyPackages p)) (l : List α) (p : TxMemPool D) :
    (l.foldlM f p).Ensures (OnlyPackages p) :=
  Ensures.foldlM_rel OnlyPackages refl trans hf l p

theorem foldl {α : Type} {f : TxMemPool D → α → TxMemPool D} (hf : ∀ p a, OnlyPackages p (f p a))
    (l : List α) (p : TxMemPool D) : OnlyPackages p (l.foldl f p) := by
  induction l generalizing p with
  | nil => exact refl p
  | cons a l ih => exact (hf p a).trans (ih (f p a))

end OnlyPackages

variable (p : TxMemPool D) {f : PoolEntry D → Result (PoolEntry D)}

theorem modify_frame (it : Uint256) (hf : ∀ e, (f e).Ensures fun e' => e'.base = e.base) :
    (p.modify it f).Ensures (OnlyPackages p) := by
  unfold modify entry
  cases he : p.mapTx.lookup it with
  | none => exact trivial
  | some e =>
    refine (hf e).map fun e' he' => ⟨fun it' => ?_, rfl, rfl, rfl, rfl⟩
    by_cases hit : it' = it
    · subst hit
      rw [AList.lookup_insert, he, map_some, map_some, he']
    · rw [AList.lookup_insert_ne hit]

theorem modifyAll_frame (s : Finset Uint256)
    (hf : ∀ e, (f e).Ensures fun e' => e'.base = e.base) :
    (p.modifyAll s f).Ensures (OnlyPackages p) :=
  OnlyPackages.foldlM (fun p it => p.modify_frame it hf) _ p

theorem modifyLinks_frame (it : Uint256) (f : PoolLinks → PoolLinks) :
    OnlyPackages p (p.modifyLinks it f) := ⟨fun _ => rfl, rfl, rfl, rfl, rfl⟩

theorem updateAncestorsOf_frame (add : Bool) (it : Uint256) (setAncestors : Finset Uint256) :
    (p.updateAncestorsOf add it setAncestors).Ensures (OnlyPackages p) := by
  refine (meets_true _).bind fun parentIters _ => ?_
  have hlinks : OnlyPackages p ((inOrder parentIters).foldl
      (fun p piter => p.updateChild piter it add) p) :=
    OnlyPackages.foldl (fun p piter => p.modifyLinks_frame piter _) _ p
  refine (meets_true _).bind fun e _ => ?_
  exact (modifyAll_frame _ _ fun a => a.updateDescendantState_base _ _ _).mono
    fun q hq => hlinks.trans hq

theorem updateEntryForAncestors_frame (it : Uint256) (setAncestors : Finset Uint256) :
    (p.updateEntryForAncestors it setAncestors).Ensures (OnlyPackages p) :=
  (meets_true _).bind fun _ _ => p.modify_frame it fun e => e.updateAncestorState_base _ _ _ _

theorem linkParents_frame (it : Uint256) (tx : CTransaction) :
    OnlyPackages p (p.linkParents it tx) :=
  OnlyPackages.foldl (fun p _ => p.modifyLinks_frame it _) _ p

theorem updateDescendantsForRemoval_frame (removeIt : Uint256) :
    (p.updateDescendantsForRemoval removeIt).Ensures (OnlyPackages p) :=
  (meets_true _).bind fun _ _ => (meets_true _).bind fun _ _ =>
    p.modifyAll_frame _ fun d => d.updateAncestorState_base _ _ _ _

theorem updateAncestorsForRemoval_frame (removeIt : Uint256) :
    (p.updateAncestorsForRemoval removeIt).Ensures (OnlyPackages p) :=
  (meets_true _).bind fun _ _ => p.updateAncestorsOf_frame false removeIt _

theorem updateChildrenForRemoval_frame (it : Uint256) :
    (p.updateChildrenForRemoval it).Ensures (OnlyPackages p) :=
  (meets_true _).map fun _ _ =>
    OnlyPackages.foldl (fun p updateIt => p.modifyLinks_frame updateIt _) _ p

theorem updateForRemoveFromMempool_frame (entriesToRemove : Finset Uint256)
    (updateDescendants : Bool) :
    (p.updateForRemoveFromMempool entriesToRemove updateDescendants).Ensures (OnlyPackages p) := by
  have hdesc : (if updateDescendants then
      (inOrder entriesToRemove).foldlM updateDescendantsForRemoval p
      else ok p).Ensures (OnlyPackages p) := by
    split
    · exact OnlyPackages.foldlM updateDescendantsForRemoval_frame _ p
    · exact OnlyPackages.refl p
  refine hdesc.bind fun q hq => ?_
  refine (OnlyPackages.foldlM updateAncestorsForRemoval_frame _ q).bind fun r hr => ?_
  exact (OnlyPackages.foldlM updateChildrenForRemoval_frame _ r).mono
    fun t ht => (hq.trans hr).trans ht

/-! ## Linking transactions of a block -/

theorem updateDescendant_frame (updated : PoolEntry D) (setExclude : Finset Uint256)
    (s : DescendantSums × TxMemPool D) (cit : Uint256) :
    (updateDescendant updated setExclude s cit).Ensures fun t => OnlyPackages s.2 t.2 := by
  unfold updateDescendant
  split
  · exact OnlyPackages.refl s.2
  · exact (meets_true _).bind fun _ _ =>
      (modify_frame _ _ fun d => d.updateAncestorState_base _ _ _ _).map fun _ hq => hq

theorem updateForDescendants_frame (updateIt : Uint256) (cachedDescendants : CacheMap)
    (setExclude : Finset Uint256) :
    (p.updateForDescendants updateIt cachedDescendants setExclude).Ensures
      fun t => OnlyPackages p t.1 := by
  refine (meets_true _).bind fun _ _ => (meets_true _).bind fun found _ =>
    (meets_true _).bind fun updated _ => ?_
  have hloop := Ensures.foldlM_rel (fun (s t) =>
    OnlyPackages s.2 t.2) (fun s => .refl s.2) OnlyPackages.trans
    (updateDescendant_frame updated setExclude) (inOrder found) (⟨0, 0, 0, ∅⟩, p)
  refine hloop.bind fun s hs => ?_
  exact (modify_frame _ _ fun e => e.updateDescendantState_base _ _ _).map
    fun q hq => hs.trans hq

variable (E : PoolEnv D)

theorem linkChild_frame (hash : Uint256) (setAlreadyIncluded : Finset Uint256)
    (s : Finset Uint256 × TxMemPool D) (child : CTransaction) :
    (linkChild E hash setAlreadyIncluded s child).Ensures fun t => OnlyPackages s.2 t.2 := by
  simp only [linkChild]
  split
  · exact trivial
  · split
    · exact ⟨fun _ => rfl, rfl, rfl, rfl, rfl⟩
    · exact OnlyPackages.refl s.2

theorem updateFromBlock_frame (setAlreadyIncluded : Finset Uint256)
    (s : TxMemPool D × CacheMap) (hash : Uint256) :
    (updateFromBlock E setAlreadyIncluded s hash).Ensures fun t => OnlyPackages s.1 t.1 := by
  unfold updateFromBlock
  split
  · exact OnlyPackages.refl s.1
  · refine (Ensures.foldlM_rel (fun (s t) => OnlyPackages s.2 t.2)
      (fun s => .refl s.2) OnlyPackages.trans
      (linkChild_frame E hash setAlreadyIncluded) _ (∅, s.1)).bind fun linked hlinked => ?_
    exact (linked.2.updateForDescendants_frame hash s.2 setAlreadyIncluded).mono
      fun t ht => hlinked.trans ht

theorem updateTransactionsFromBlock_frame (vHashesToUpdate : List Uint256) :
    (p.updateTransactionsFromBlock E vHashesToUpdate).Ensures (OnlyPackages p) :=
  (Ensures.foldlM_rel (fun (s t) => OnlyPackages s.1 t.1) (fun s => .refl s.1) OnlyPackages.trans
    (updateFromBlock_frame E vHashesToUpdate.toFinset) _ (p, ∅)).map fun _ ht => ht

/-! ## The indexes of what the pool spends

`mapNextTx` leads from an outpoint to the transaction of the pool that spends it, and
`mapSaplingNullifiers` from a nullifier to the transaction that reveals it. Both are written when a
transaction enters and erased when it is removed, on every path but one: `clear` empties `mapTx` and
`mapNextTx` and leaves `mapSaplingNullifiers`.
-/

open AList Except OwnerIndex Option

variable (E : PoolEnv D) (p q : TxMemPool D)

/-- The transaction at an id. -/
def txAt (it : Uint256) : Option CTransaction := (p.mapTx.lookup it).map (·.tx)

/-- A transaction is in `mapTx`. -/
def InPool (tx : CTransaction) : Prop := p.txAt (tx.getHash E.toHashing) = some tx

/-- **The indexes are exact.** Each leads to a transaction if and only if it is in the pool and
spends the outpoint, or reveals the nullifier; and no two transactions share one. -/
structure IndexesExact : Prop where
  mapNextTx : ∀ o tx, p.mapNextTx.lookup o = some tx ↔ p.InPool E tx ∧ o ∈ tx.prevouts
  mapSaplingNullifiers : ∀ nf tx, p.mapSaplingNullifiers.lookup nf = some tx ↔
    p.InPool E tx ∧ nf ∈ tx.poolNullifiers
  noConflict : ∀ tx tx', p.InPool E tx → p.InPool E tx' → tx ≠ tx' →
    tx.prevouts.Disjoint tx'.prevouts ∧ tx.poolNullifiers.Disjoint tx'.poolNullifiers

/-- What the calls keep: the index of spends is exact, that of nullifiers is if `shielded` asks
for it, and an entry stands under the id of its transaction. -/
structure Indexed (E : PoolEnv D) (shielded : Prop) (p : TxMemPool D) : Prop where
  keyed : ∀ it tx, p.txAt it = some tx → tx.getHash E = it
  next : OwnerIndex.Exact p.mapNextTx CTransaction.prevouts (p.InPool E)
  nullifiers : shielded →
    OwnerIndex.Exact p.mapSaplingNullifiers CTransaction.poolNullifiers (p.InPool E)

variable {E p q} {shielded : Prop}

theorem Indexed.indexesExact (h : p.Indexed E True) : p.IndexesExact E where
  mapNextTx := h.next
  mapSaplingNullifiers := h.nullifiers trivial
  noConflict _ _ htx htx' hne :=
    ⟨fun _ ho ho' => hne (h.next.unique htx htx' ho ho'),
      fun _ hnf hnf' => hne ((h.nullifiers trivial).unique htx htx' hnf hnf')⟩

theorem indexed_empty (n : ℕ) : (empty n : TxMemPool D).Indexed E shielded := by
  have hnone : ∀ tx, (empty n).InPool E tx ↔ False := by
    intro tx
    simp [InPool, txAt, empty]
  exact ⟨fun it tx h => by simp [txAt, empty] at h, exact_empty.congr hnone,
    fun _ => exact_empty.congr hnone⟩

/-- The transactions and the two indexes are the same. -/
structure SameSpends (p q : TxMemPool D) : Prop where
  txAt : ∀ it, q.txAt it = p.txAt it
  mapNextTx : q.mapNextTx = p.mapNextTx
  mapSaplingNullifiers : q.mapSaplingNullifiers = p.mapSaplingNullifiers

theorem OnlyPackages.sameSpends (h : OnlyPackages p q) : SameSpends p q where
  txAt it := h.map_base (fun b => b.1.tx) it
  mapNextTx := h.mapNextTx
  mapSaplingNullifiers := h.mapSaplingNullifiers

theorem SameSpends.trans {r : TxMemPool D} (h : SameSpends p q) (h' : SameSpends q r) :
    SameSpends p r where
  txAt it := (h'.txAt it).trans (h.txAt it)
  mapNextTx := h'.mapNextTx.trans h.mapNextTx
  mapSaplingNullifiers := h'.mapSaplingNullifiers.trans h.mapSaplingNullifiers

theorem Indexed.sameSpends (h : p.Indexed E shielded) (hq : SameSpends p q) :
    q.Indexed E shielded where
  keyed it tx hit := h.keyed it tx ((hq.txAt it).symm.trans hit)
  next := by
    rw [hq.mapNextTx]
    exact h.next.congr fun tx => by rw [InPool, InPool, hq.txAt]
  nullifiers hall := by
    rw [hq.mapSaplingNullifiers]
    exact (h.nullifiers hall).congr fun tx => by rw [InPool, InPool, hq.txAt]

theorem Indexed.clearPrioritisation (h : p.Indexed E shielded) (hash : Uint256) :
    (p.clearPrioritisation hash).Indexed E shielded := h.sameSpends ⟨fun _ => rfl, rfl, rfl⟩

/-! ## Removing -/

/-- **A removed entry takes its keys out of both indexes.** -/
theorem Indexed.removeUnchecked (h : p.Indexed E shielded) (it : Uint256) :
    (p.removeUnchecked it).Ensures (Indexed E shielded) := by
  unfold TxMemPool.removeUnchecked entry
  cases he : p.mapTx.lookup it with
  | none => exact trivial
  | some e =>
    have hat : p.txAt it = some e.tx := by rw [txAt, he, map_some]
    have hid : e.tx.getHash E = it := h.keyed it e.tx hat
    have hin : p.InPool E e.tx := by rw [InPool, hid, hat]
    have hleft : ∀ it', txAt { p with mapTx := p.mapTx.erase it } it' =
        if it' = it then none else p.txAt it' := by
      intro it'
      by_cases hit : it' = it
      · subst hit
        simp [txAt]
      · simp [txAt, hit]
    -- the transactions that are left are those that are not the one removed
    have hlive : ∀ tx, (txAt { p with mapTx := p.mapTx.erase it } (tx.getHash E) =
        some tx) ↔ p.InPool E tx ∧ tx ≠ e.tx := by
      intro tx
      rw [hleft]
      split
      · next heq =>
        constructor
        · exact fun hnone => by cases hnone
        · rintro ⟨htx, hne⟩
          rw [InPool, heq, hat] at htx
          exact absurd (some.inj htx).symm hne
      · next hne => exact ⟨fun htx => ⟨htx, fun heq => hne (heq ▸ hid)⟩, fun htx => htx.1⟩
    refine ⟨fun it' tx htx => ?_, (h.next.eraseAll hin).congr hlive,
      fun hall => ((h.nullifiers hall).eraseAll hin).congr hlive⟩
    have hrest : p.txAt it' = some tx := by
      have htx' := (hleft it').symm.trans htx
      split at htx'
      · cases htx'
      · exact htx'
    exact h.keyed it' tx hrest

/-- A loop over functions that keep what is said here. -/
theorem Indexed.foldlM {α : Type} {f : TxMemPool D → α → Result (TxMemPool D)}
    (hf : ∀ p : TxMemPool D, p.Indexed E shielded → ∀ a, (f p a).Ensures (Indexed E shielded))
    (h : p.Indexed E shielded) (l : List α) : (l.foldlM f p).Ensures (Indexed E shielded) :=
  Meets.foldlM (fun _ => Indexed E shielded) h fun _ a s _ hs => hf s hs a

theorem Indexed.removeStaged (h : p.Indexed E shielded) (stage : Finset Uint256)
    (updateDescendants : Bool) :
    (p.removeStaged stage updateDescendants).Ensures (Indexed E shielded) :=
  (p.updateForRemoveFromMempool_frame stage updateDescendants).bind fun _ hq =>
    (h.sameSpends hq.sameSpends).foldlM (fun _ h => h.removeUnchecked) _

theorem Indexed.removeWithDescendants (h : p.Indexed E shielded) (s : Finset Uint256) :
    (p.removeWithDescendants s).Ensures (Indexed E shielded) :=
  (meets_true _).bind fun stage _ => h.removeStaged stage false

section

variable (h : p.Indexed E shielded) (tx : CTransaction)

include h tx

theorem Indexed.removeRecursive : (p.removeRecursive E tx).Ensures (Indexed E shielded) :=
  (meets_true _).bind fun s _ => h.removeWithDescendants s

theorem Indexed.removeConflict (found : Option CTransaction) :
    (p.removeConflict E tx found).Ensures (Indexed E shielded) := by
  unfold TxMemPool.removeConflict
  split
  · exact h
  · split
    · exact (h.removeRecursive _).map fun _ hq => hq.clearPrioritisation _
    · exact h

theorem Indexed.removeConflicts : (p.removeConflicts E tx).Ensures (Indexed E shielded) :=
  (h.foldlM (fun _ hp _ => hp.removeConflict tx _) _).bind fun _ hq =>
    hq.foldlM (fun _ hp _ => hp.removeConflict tx _) _

theorem Indexed.removeBlockTx : (p.removeBlockTx E tx).Ensures (Indexed E shielded) := by
  have hfirst : (if tx.getHash E ∈ p.mapTx then
      p.removeStaged {tx.getHash E} true else ok p).Ensures (Indexed E shielded) := by
    split
    · exact h.removeStaged _ true
    · exact h
  exact hfirst.bind fun _ hq => (hq.removeConflicts tx).map fun _ hr => hr.clearPrioritisation _

end

theorem Indexed.trimLoop (sizelimit n : ℕ) (h : p.Indexed E shielded) :
    (trimLoop E sizelimit n p).Ensures (Indexed E shielded) := by
  induction n generalizing p with
  | zero =>
    unfold trimLoop
    split
    · exact h
    · split
      · exact trivial
      · exact trivial
      · next heq => cases heq
  | succ n ih =>
    unfold trimLoop
    split
    · exact h
    · split
      · exact trivial
      · next heq => cases heq
      · next it m _ heq =>
        cases heq
        exact (h.removeWithDescendants {it}).bind fun _ hq => ih hq

/-! ## Adding -/

/-- A transaction may enter: no transaction of the pool spends what it spends, or reveals what
it reveals. -/
def NoConflict (E : PoolEnv D) (p : TxMemPool D) (tx : CTransaction) : Prop :=
  ∀ tx', p.InPool E tx' → tx.prevouts.Disjoint tx'.prevouts ∧
    tx.poolNullifiers.Disjoint tx'.poolNullifiers

/-- No transaction of the pool spends what the transaction spends, or reveals what it reveals if
`shielded` asks for that. -/
def Apart (E : PoolEnv D) (shielded : Prop) (p : TxMemPool D) (tx : CTransaction) : Prop :=
  ∀ tx', p.InPool E tx' → tx.prevouts.Disjoint tx'.prevouts ∧
    (shielded → tx.poolNullifiers.Disjoint tx'.poolNullifiers)

theorem modify_updateFeeDelta_sameSpends (p : TxMemPool D) (it : Uint256) (delta : Int64) :
    (p.modify it fun e => .ok (e.updateFeeDelta delta)).Ensures (SameSpends p) := by
  unfold modify entry
  cases he : p.mapTx.lookup it with
  | none => exact trivial
  | some e =>
    refine ⟨fun it' => ?_, rfl, rfl⟩
    by_cases hit : it' = it
    · subst hit
      simp [txAt, he, PoolEntry.updateFeeDelta]
    · simp [txAt, lookup_insert_ne hit]

theorem applyFeeDelta_sameSpends (p : TxMemPool D) (it : Uint256) :
    (p.applyFeeDelta it).Ensures (SameSpends p) := by
  unfold applyFeeDelta
  split
  · exact ⟨fun _ => rfl, rfl, rfl⟩
  · split
    · exact p.modify_updateFeeDelta_sameSpends it _
    · exact ⟨fun _ => rfl, rfl, rfl⟩

/-- A transaction has come into the pool, or was there already. -/
structure Entered (E : PoolEnv D) (p q : TxMemPool D) (tx : CTransaction) : Prop where
  before : p.txAt (tx.getHash E) = none ∨ p.txAt (tx.getHash E) = some tx
  after : ∀ it, q.txAt it = if it = tx.getHash E then some tx else p.txAt it

variable {tx : CTransaction}

theorem Entered.inPool_iff (h : Entered E p q tx) (tx' : CTransaction) :
    q.InPool E tx' ↔ p.InPool E tx' ∨ tx' = tx := by
  rw [InPool, InPool, h.after]
  split
  · next hid =>
    rw [hid]
    rcases h.before with hnone | hsome
    · simp [hnone, eq_comm]
    · simp [hsome, eq_comm]
  · next hid =>
    refine ⟨.inl, ?_⟩
    rintro (htx | rfl)
    · exact htx
    · exact absurd rfl hid

/-- A transaction that has no key of another is written into both indexes. -/
theorem Indexed.entered (h : p.Indexed E shielded) (hin : Entered E p q tx)
    (hfree : p.InPool E tx ∨ p.Apart E shielded tx)
    (hnext : q.mapNextTx = insertNew p.mapNextTx tx.prevouts tx) (hnull : q.mapSaplingNullifiers =
      insertAll p.mapSaplingNullifiers tx.poolNullifiers tx) : q.Indexed E shielded where
  keyed it tx' hit := by
    rw [hin.after] at hit
    split at hit
    · next hid =>
      cases hit
      exact hid.symm
    · exact h.keyed it tx' hit
  next := by
    rw [hnext]
    refine (h.next.insertNew fun u o hu ho ho' => ?_).congr hin.inPool_iff
    rcases hfree with htx | hfree
    · exact h.next.unique hu htx ho' ho
    · exact absurd ho' ((hfree u hu).1 ho)
  nullifiers hall := by
    rw [hnull]
    refine ((h.nullifiers hall).insertAll fun u nf hu hnf hnf' => ?_).congr hin.inPool_iff
    rcases hfree with htx | hfree
    · exact (h.nullifiers hall).unique hu htx hnf' hnf
    · exact absurd hnf' ((hfree u hu).2 hall hnf)

/-- What stands under the id of a new entry: the new transaction, or one that was there. -/
theorem exists_entered_insertEntry (h : p.Indexed E shielded) (e : PoolEntry D) :
    ∃ tx, tx.getHash E = e.hash E ∧ Entered E p (p.insertEntry E e) tx ∧
      (tx = e.tx ∨ p.InPool E tx) := by
  by_cases hmem : e.hash E ∈ p.mapTx
  · obtain ⟨old, hold⟩ := isSome_iff_exists.mp (lookup_isSome.mpr hmem)
    have hat : p.txAt (e.hash E) = some old.tx := by rw [txAt, hold, map_some]
    have hid := h.keyed _ _ hat
    refine ⟨old.tx, hid, ⟨.inr (by rw [hid, hat]), fun it => ?_⟩, .inr (by rw [InPool, hid, hat])⟩
    have hsame : (p.insertEntry E e).txAt it = p.txAt it := by simp [insertEntry, txAt, hmem]
    rw [hsame, hid]
    split
    · next heq => rw [heq, hat]
    · rfl
  · have hnone : p.txAt (e.hash E) = none := by
      rw [txAt, lookup_eq_none.mpr hmem, map_none]
    refine ⟨e.tx, rfl, ⟨.inl hnone, fun it => ?_⟩, .inl rfl⟩
    have hins : (p.insertEntry E e).mapTx = p.mapTx.insert (e.hash E) e := if_neg hmem
    change _ = if it = e.hash E then some e.tx else p.txAt it
    rw [txAt, hins]
    split
    · next hit => rw [hit, lookup_insert, map_some]
    · next hit => rw [lookup_insert_ne hit, txAt]

/-- **An entry whose transaction conflicts with none enters both indexes.** Where its id is
taken, what stands there is written once more. -/
theorem Indexed.addWithAncestors (h : p.Indexed E shielded) {e : PoolEntry D}
    (hfree : p.Apart E shielded e.tx) (setAncestors : Finset Uint256) :
    (p.addWithAncestors E e setAncestors).Ensures (Indexed E shielded) := by
  obtain ⟨tx, hid, hin, htx⟩ := exists_entered_insertEntry h e
  refine (applyFeeDelta_sameSpends _ _).bind fun p1 h1 => ?_
  have hentry : (p1.entry (e.hash E)).Ensures fun n => n.tx = tx := by
    have hat : p1.txAt (e.hash E) = some tx := by
      rw [h1.txAt, hin.after, if_pos hid.symm]
    unfold entry
    cases hlook : p1.mapTx.lookup (e.hash E) with
    | none => exact trivial
    | some n =>
      rw [txAt, hlook] at hat
      exact some.inj hat
  refine hentry.bind fun newEntry hnew => ?_
  rw [hnew]
  refine (updateAncestorsOf_frame _ true _ setAncestors).bind fun p2 h2 => ?_
  refine (p2.updateEntryForAncestors_frame _ setAncestors).map fun p3 h3 => ?_
  have hlinks := (((linkParents_frame (p1.insertNextTx tx) (e.hash E) tx).trans
    h2).trans h3).sameSpends
  have hfree' : p.InPool E tx ∨ p.Apart E shielded tx := by
    rcases htx with rfl | htx
    · exact .inr hfree
    · exact .inl htx
  refine h.entered ⟨hin.before, fun it => ?_⟩ hfree' ?_ ?_
  · exact (hlinks.txAt it).trans ((h1.txAt it).trans (hin.after it))
  · exact hlinks.mapNextTx.trans (congrArg (insertNew · tx.prevouts tx) h1.mapNextTx)
  · exact congrArg (insertAll · tx.poolNullifiers tx)
      (hlinks.mapSaplingNullifiers.trans h1.mapSaplingNullifiers)

/-! ## Runs -/

theorem prioritiseTransaction_sameSpends (p : TxMemPool D) (hash : Uint256) (dPriorityDelta : D)
    (nFeeDelta : Int64) :
    (p.prioritiseTransaction E hash dPriorityDelta nFeeDelta).Ensures (SameSpends p) := by
  unfold prioritiseTransaction
  simp only
  split
  · refine (modify_updateFeeDelta_sameSpends _ hash _).bind fun q hq => ?_
    refine (meets_true _).bind fun setAncestors _ => ?_
    refine (q.modifyAll_frame setAncestors fun a => a.updateDescendantState_base _ _ _).mono
      fun r hr => ?_
    have hstart : SameSpends p q := ⟨hq.txAt, hq.mapNextTx, hq.mapSaplingNullifiers⟩
    exact hstart.trans hr.sameSpends
  · exact ⟨fun _ => rfl, rfl, rfl⟩

/-- The transactions that `addUnchecked` is called with conflict with none of the pool. -/
def AddsNoConflict (E : PoolEnv D) (p : TxMemPool D) : PoolCall D → Prop
  | .addUnchecked e _ _ => p.NoConflict E e.tx
  | _ => True

/-- The pool is cleared only while no transaction in it reveals a nullifier. -/
def ClearsUnshielded (E : PoolEnv D) (p : TxMemPool D) : PoolCall D → Prop
  | .clear => ∀ tx, p.InPool E tx → tx.poolNullifiers = []
  | _ => True

theorem not_inPool_clear (tx : CTransaction) : ¬ p.clear.InPool E tx := by
  simp [InPool, txAt, clear]

theorem Indexed.clear (h : p.Indexed E shielded)
    (hnone : shielded → ∀ tx, p.InPool E tx → tx.poolNullifiers = []) :
    p.clear.Indexed E shielded where
  keyed it tx hit := by simp [txAt, TxMemPool.clear] at hit
  next := exact_empty.congr fun tx => iff_false_intro (not_inPool_clear tx)
  nullifiers hall nf tx := by
    refine ⟨fun hlook => ?_, fun htx => absurd htx.1 (not_inPool_clear tx)⟩
    obtain ⟨htx, hnf⟩ := (h.nullifiers hall nf tx).mp hlook
    rw [hnone hall tx htx] at hnf
    cases hnf

/-- What `clear` leaves in `mapSaplingNullifiers` is no transaction of the pool. -/
theorem Indexed.unshielded_of_clear (h : p.Indexed E True) (hclear : p.clear.IndexesExact E)
    (htx : p.InPool E tx) : tx.poolNullifiers = [] := by
  refine List.eq_nil_iff_forall_not_mem.mpr fun nf hnf => ?_
  have hlook : p.clear.mapSaplingNullifiers.lookup nf = some tx :=
    (h.nullifiers trivial nf tx).mpr ⟨htx, hnf⟩
  exact not_inPool_clear tx ((hclear.mapSaplingNullifiers nf tx).mp hlook).1

/-- **One call.** -/
theorem Indexed.step (h : p.Indexed E True) {call : PoolCall D} (hadd : AddsNoConflict E p call)
    (hclear : ClearsUnshielded E p call) : (p.step E call).Ensures (Indexed E True) := by
  cases call with
  | addUnchecked e nTime spends =>
    exact (meets_true _).bind fun s _ => h.addWithAncestors (e := .ofEntry e nTime spends)
      (fun u hu => (hadd u hu).imp_right fun hnull _ => hnull) s
  | removeRecursive tx => exact h.removeRecursive tx
  | removeForReorg view => exact (meets_true _).bind fun s _ => h.removeWithDescendants s
  | removeWithAnchor invalidRoot => exact h.foldlM (fun _ hp tx => hp.removeRecursive tx) _
  | removeConflicts tx => exact h.removeConflicts tx
  | removeForBlock vtx => exact h.foldlM (fun _ hp tx => hp.removeBlockTx tx) _
  | expire time => exact h.removeWithDescendants _
  | trimToSize sizelimit => exact h.trimLoop sizelimit _
  | clear => exact h.clear fun _ => hclear
  | prioritiseTransaction hash dPriorityDelta nFeeDelta =>
    exact (p.prioritiseTransaction_sameSpends hash dPriorityDelta nFeeDelta).mono
      fun _ hq => h.sameSpends hq
  | updateTransactionsFromBlock vHashesToUpdate =>
    exact (p.updateTransactionsFromBlock_frame E vHashesToUpdate).mono
      fun _ hq => h.sameSpends hq.sameSpends

/-- **The indexes through a run.** Where only transactions are added that conflict with none of
the pool, the indexes are exact after every call exactly if the pool is only ever cleared while
no transaction in it reveals a nullifier. -/
theorem spendIndexes_exact_iff {n : ℕ} {l : List (PoolCall D)}
    (hadd : Run.EachStep (step E) (empty n) (AddsNoConflict E) l) :
    Run.Always (step E) (empty n) (IndexesExact E) l ↔
      Run.EachStep (step E) (empty n) (ClearsUnshielded E) l := by
  refine Run.always_iff_of_invariant (Indexed E True) (indexed_empty n)
    (fun _ h => h.indexesExact) fun pre call post s t hl hpre hcall hs => ⟨fun ht => ?_, ?_⟩
  · cases call with
    | clear =>
      cases hcall
      exact fun tx htx => hs.unshielded_of_clear ht htx
    | _ => exact trivial
  · intro hclear
    exact (hs.step (hadd pre call post s t hl hpre hcall) hclear).of_ok hcall

/-! A pool that can be run by hand. -/

namespace PoolSample

/-- Ids by the hash of the sample, memory by the number of entries. -/
def env : PoolEnv Unit where
  toHashing := sampleEnv.toHashing
  ops := ⟨fun _ => (), fun _ _ => (), fun _ _ => (), fun _ _ => (), fun _ _ => true,
    fun _ _ => false⟩
  dynamicMemoryUsage p := p.mapTx.keys.length
  lowestScore p := p.mapTx.keys.head?
  mem_of_lowestScore _ _ hhead := AList.mem_keys.mpr (List.mem_of_mem_head? hhead)

/-- The entry of a transaction. -/
def entryOf (tx : CTransaction) : CTxMemPoolEntry Unit where
  tx := tx
  nFee := 10
  feeDelta := 0
  sigOpCount := getLegacySigOpCount tx
  entryPriority := ()
  entryHeight := 1
  inChainInputValue := 0
  legacy_le_sigOpCount := le_rfl

/-- A transparent transaction that spends outpoints, with one output. -/
def spending (prevouts : List COutPoint) : CTransaction :=
  .plain (prevouts.map fun o => ⟨o, [], 0xffffffff⟩) [⟨5, []⟩]

/-- A transaction that reveals a nullifier. -/
def revealing (nullifier : Uint256) : CTransaction :=
  { CTransaction.plain [] [] with
    nVersion := 3
    sapData := some { SaplingTxData.empty with
      vShieldedSpend := [⟨BaseUint.zero, BaseUint.zero, nullifier, BaseUint.zero, .zeros 192,
        .zeros 64⟩] } }

/-- A transparent transaction enters, and the pool is cleared. -/
def clearTransparent : List (PoolCall Unit) :=
  [.addUnchecked (entryOf (spending [⟨BaseUint.ofNat 1, 0⟩])) 0 false, .clear]

/-- A shielded transaction enters, and the pool is cleared. -/
def clearShielded : List (PoolCall Unit) :=
  [.addUnchecked (entryOf (revealing (BaseUint.ofNat 1))) 0 false, .clear]

theorem noConflict_empty (tx : CTransaction) : (empty 0).NoConflict env tx :=
  fun tx' h => absurd h (by simp [InPool, txAt, empty])

/-- The first call of a run adds to an empty pool. -/
theorem addsNoConflict_clear (e : CTxMemPoolEntry Unit) :
    Run.EachStep (step env) (empty 0) (AddsNoConflict env) [.addUnchecked e 0 false, .clear] :=
  Run.EachAction.eachStep (.cons (noConflict_empty e.tx) fun _ _ =>
    .cons trivial fun _ _ => Run.eachAction_nil)

end PoolSample

open PoolSample in
/-- A transparent transaction is cleared from the pool. -/
theorem spendIndexes_exact_transparent :
    (∃ p, Run.after (step env) (empty 0) clearTransparent = .ok p) ∧
      Run.Always (step env) (empty 0) (IndexesExact env) clearTransparent := by
  refine ⟨by decide +kernel, (spendIndexes_exact_iff (addsNoConflict_clear _)).mpr ?_⟩
  refine Run.EachAction.eachStep (.cons trivial fun s hs => .cons (fun tx htx => ?_) fun _ _ =>
    Run.eachAction_nil)
  have hall : ∀ s ∈ ((empty 0).step env (clearTransparent.head (by decide))).toOption,
      ∀ id e, s.mapTx.lookup id = some e → e.tx.poolNullifiers = [] := by
    decide +kernel
  obtain ⟨e, he, rfl⟩ := Option.map_eq_some_iff.mp htx
  exact hall s (congrArg Except.toOption hs) _ e he

open PoolSample in
/-- **A cleared pool can still know a nullifier**: of a shielded transaction that is gone. -/
theorem not_spendIndexes_exact :
    ¬ ∀ (D : Type) (E : PoolEnv D) (n : ℕ) (l : List (PoolCall D)),
      Run.EachStep (step E) (empty n) (AddsNoConflict E) l →
        Run.Always (step E) (empty n) (IndexesExact E) l := by
  intro hall
  have hexact := hall Unit env 0 clearShielded (addsNoConflict_clear _)
  obtain ⟨p, hp, tx, hlook, hnone⟩ : ∃ p, Run.after (step env) (empty 0) clearShielded = .ok p ∧
      ∃ tx, p.mapSaplingNullifiers.lookup (BaseUint.ofNat 1) = some tx ∧
        p.txAt (tx.getHash env) = none := by
    decide +kernel
  have hin := (((hexact clearShielded (List.prefix_refl _) p hp).mapSaplingNullifiers _ tx).mp
    hlook).1
  rw [InPool, hnone] at hin
  cases hin

end TxMemPool

end Passion
