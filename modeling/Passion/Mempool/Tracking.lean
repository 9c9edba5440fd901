import Passion.Mempool.FromBlock

/-!
# Links and statistics through the calls

The links of the pool show what its transactions spend from each other, up to re-added
transactions that are not joined to the rest yet, and the statistics are sums over them. Each
function that removes entries leads from such a pool to such a pool.
-/

namespace Passion

open List Except Traversal Finset Dag TxMemPool

variable {D : Type}

namespace TxMemPool

variable {E : PoolEnv D} {p q r : TxMemPool D} {G G' : Dag Uint256} {l : List Uint256}

/-- A transaction of the pool spends an output of another. -/
def Spends (p : TxMemPool D) (a b : Uint256) : Prop :=
  a ∈ p.mapTx ∧ ∃ tx, p.txAt b = some tx ∧ ∃ o ∈ tx.prevouts, o.hash = a

/-- **What the calls keep.** The links show a graph, the counts are sums over it, and its edges
are what is spent in the pool. The transactions of `l` were re-added and are not linked to their
children outside `l` yet; what they spend in the pool is of `l`, and comes before them. -/
structure Tracks (E : PoolEnv D) (l : List Uint256) (G : Dag Uint256) (p : TxMemPool D) : Prop where
  shows : p.Shows G
  counted : Counted G p
  indexed : p.Indexed E False
  children : ∀ a b, b ∈ G.children a ↔ p.Spends a b ∧ (a ∈ l → b ∈ l)
  closed : ∀ a b, p.Spends a b → b ∈ l → a ∈ l
  nodup : l.Nodup
  ordered : ∀ pre b post, l = pre ++ b :: post → ∀ c ∈ G.children b, c ∈ post

/-- The entries know the fee deltas that were set for them. -/
def Credited (p : TxMemPool D) : Prop :=
  ∀ it e, p.mapTx.lookup it = some e → e.feeDelta = p.deltaOf it

/-- Statistics that were sums over one graph are sums over another, and fee deltas stay known. -/
structure Keeps (G G' : Dag Uint256) (p q : TxMemPool D) : Prop where
  exact : ∀ side (M : Type) [AddCommGroup M] (π : Figures →+ M), Exact side π G p → Exact side π G' q
  credited : Credited p → Credited q

theorem Keeps.refl (G : Dag Uint256) (p : TxMemPool D) : Keeps G G p p :=
  ⟨fun _ _ _ _ h => h, id⟩

theorem Keeps.trans {G'' : Dag Uint256} (h : Keeps G G' p q) (h' : Keeps G' G'' q r) :
    Keeps G G'' p r :=
  ⟨fun side M _ π hp => h'.exact side M π (h.exact side M π hp),
    fun hp => h'.credited (h.credited hp)⟩

theorem Keeps.counted (h : Keeps G G' p q) (hc : Counted G p) : Counted G' q :=
  fun side => h.exact side _ _ (hc side)

/-- **Entries are gone**, and what is left is in order. -/
structure Drops (E : PoolEnv D) (l : List Uint256) (G : Dag Uint256) (p q : TxMemPool D) : Prop where
  tracks : ∃ G', Tracks E l G' q ∧ Keeps G G' p q
  left : ∀ it tx, q.txAt it = some tx → p.txAt it = some tx

theorem Drops.refl (h : Tracks E l G p) : Drops E l G p p := ⟨⟨G, h, .refl G p⟩, fun _ _ => id⟩

theorem Drops.trans (h : Drops E l G p q) (hG : Keeps G G' p q) (h' : Drops E l G' q r) :
    Drops E l G p r := by
  obtain ⟨G'', ht, hk⟩ := h'.tracks
  exact ⟨⟨G'', ht, hG.trans hk⟩, fun it tx hit => h.left it tx (h'.left it tx hit)⟩

/-- One function after another. -/
theorem Drops.bind {A : Failure → Prop} {x : Result (TxMemPool D)}
    {f : TxMemPool D → Result (TxMemPool D)} (hx : x.Meets A (Drops E l G p))
    (hf : ∀ q G', Drops E l G p q → Tracks E l G' q → (f q).Meets A (Drops E l G' q)) :
    (x.bind f).Meets A (Drops E l G p) := by
  refine Meets.bind hx fun q hq => ?_
  obtain ⟨G', ht, hk⟩ := hq.tracks
  exact (hf q G' hq ht).mono fun r hr => hq.trans hk hr

/-- A loop of such functions. -/
theorem Drops.foldlM {α : Type} {A : Failure → Prop} {f : TxMemPool D → α → Result (TxMemPool D)}
    (hf : ∀ q G' a, Tracks E l G' q → (f q a).Meets A (Drops E l G' q)) (h : Tracks E l G p)
    (as : List α) : (as.foldlM f p).Meets A (Drops E l G p) := by
  refine Meets.foldlM (fun _ q => Drops E l G p q) (.refl h) fun _ a q _ hq => ?_
  obtain ⟨G', ht, hk⟩ := hq.tracks
  exact (hf q G' a ht).mono fun r hr => hq.trans hk hr

/-! ## Removing entries -/

variable {it : Uint256}

theorem mem_iff_txAt : it ∈ p.mapTx ↔ ∃ tx, p.txAt it = some tx := by
  rw [← AList.lookup_isSome, Option.isSome_iff_exists]
  simp [txAt]

variable {R : Finset Uint256}

theorem Removed.txAt (h : Removed R p q) (it : Uint256) :
    q.txAt it = if it ∈ R then none else p.txAt it := by
  have hbase := congrArg (Option.map fun b : CTxMemPoolEntry D × ℤ × Bool => b.1.tx) (h.base it)
  rw [Option.map_map] at hbase
  refine hbase.trans ?_
  split
  · rfl
  · rw [Option.map_map]
    rfl

/-- Entries that differ in their statistics only know the same fee deltas. -/
theorem Credited.of_base (h : Credited p) (hdeltas : q.mapDeltas = p.mapDeltas)
    (hbase : ∀ it e, q.mapTx.lookup it = some e →
      (p.mapTx.lookup it).map PoolEntry.base = some e.base) : Credited q := by
  intro it e he
  obtain ⟨old, hold, hsame⟩ := Option.map_eq_some_iff.mp (hbase it e he)
  have hfee : old.feeDelta = e.feeDelta :=
    congrArg (fun b : CTxMemPoolEntry D × ℤ × Bool => b.1.feeDelta) hsame
  rw [← hfee, h it old hold, deltaOf, deltaOf, hdeltas]

theorem Removed.credited (h : Removed R p q) (hp : Credited p) : Credited q := by
  refine hp.of_base h.mapDeltas fun it e he => ?_
  have hbase := h.base it
  rw [he] at hbase
  split at hbase
  · cases hbase
  · exact hbase.symm

theorem OnlyPackages.credited (h : OnlyPackages p q) (hp : Credited p) : Credited q :=
  hp.of_base h.mapDeltas fun it e he => by rw [← h.base it, he, Option.map_some]

/-- What is spent among the entries that stay. -/
theorem Removed.spends_iff (h : Removed R p q) (a b : Uint256) :
    q.Spends a b ↔ p.Spends a b ∧ a ∉ R ∧ b ∉ R := by
  unfold Spends
  rw [mem_iff_txAt, h.txAt, h.txAt, mem_iff_txAt]
  by_cases ha : a ∈ R
  · simp [ha]
  · by_cases hb : b ∈ R
    · simp [hb]
    · simp [ha, hb]

theorem Tracks.removeStaged (h : Tracks E l G p) (hR : R ⊆ G.nodes) {updateDescendants : Bool}
    (havoids : G.Avoids R) (hdesc : updateDescendants = true ∨ ∀ r ∈ R, G.children r ⊆ R) :
    (p.removeStaged R updateDescendants).Yields fun q => Drops E l G p q ∧ ∀ x ∈ R, q.txAt x = none := by
  have hall := ((h.shows.yields_removeStaged h.counted hR hdesc).and_ensures
    (h.indexed.removeStaged R updateDescendants)).and_ensures
      (p.removeStaged_removed R updateDescendants)
  refine hall.mono ?_
  rintro q ⟨⟨⟨hshows, hsub⟩, hindexed⟩, hremoved⟩
  have hkeeps : Keeps G (G.remove R) p q :=
    ⟨fun _ _ _ _ hp => hp.remove hsub havoids, hremoved.credited⟩
  refine ⟨⟨⟨G.remove R, ⟨hshows, hkeeps.counted h.counted, hindexed, fun a b => ?_, fun a b hab => ?_,
    h.nodup, fun pre b post hl c hc => ?_⟩, hkeeps⟩, fun it tx hit => ?_⟩, fun x hx => ?_⟩
  · change b ∈ G.restChildren R a ↔ _
    rw [mem_restChildren, hremoved.spends_iff, h.children]
    tauto
  · exact h.closed a b ((hremoved.spends_iff a b).mp hab).1
  · exact h.ordered pre b post hl c (mem_restChildren.mp hc).1
  · rw [hremoved.txAt] at hit
    split at hit
    · cases hit
    · exact hit
  · rw [hremoved.txAt, if_pos hx]

/-- Entries go with all that is below them. -/
theorem Tracks.removeWithDescendants (h : Tracks E l G p) {s : Finset Uint256} (hs : s ⊆ G.nodes) :
    (p.removeWithDescendants s).Yields fun q => Drops E l G p q ∧ ∀ x ∈ s, q.txAt x = none := by
  obtain ⟨t, ht, hmem⟩ := exists_withDescendants h.shows hs
  have hclosed : ∀ x ∈ t, G.children x ⊆ t := by
    intro x hx y hy
    obtain ⟨k, hk, hkx⟩ := (hmem x).mp hx
    exact (hmem y).mpr ⟨k, hk, hkx.tail hy⟩
  have htG : t ⊆ G.nodes := by
    intro x hx
    obtain ⟨k, hk, hkx⟩ := (hmem x).mp hx
    exact G.mem_of_reaches hkx (hs hk)
  rw [TxMemPool.removeWithDescendants, ht]
  refine (h.removeStaged htG (avoids_of_closed hclosed) (.inr hclosed)).mono ?_
  rintro q ⟨hq, hgone⟩
  exact ⟨hq, fun x hx => hgone x ((hmem x).mpr ⟨x, hx, .refl⟩)⟩

variable {tx : CTransaction}

/-- `mapNextTx` leads to entries of the pool. -/
theorem Indexed.mem_of_next (h : p.Indexed E False) {o : COutPoint}
    (hlook : p.mapNextTx.lookup o = some tx) : tx.getHash E ∈ p.mapTx :=
  mem_iff_txAt.mpr ⟨tx, ((h.next o tx).mp hlook).1⟩

theorem Tracks.yields_spendersOf (h : Tracks E l G p) (txid : Uint256) (nOut : ℕ) :
    (p.spendersOf E txid nOut).Yields fun s => s ⊆ G.nodes := by
  refine Meets.foldlM (fun _ s => s ⊆ G.nodes) (empty_subset _) fun _ i s _ hs => ?_
  split
  · exact hs
  · next next hnext =>
    have hmem := h.indexed.mem_of_next hnext
    rw [if_pos hmem]
    exact insert_subset ((h.shows.nodes _).mp hmem) hs

theorem Drops.gone (h : Drops E l G p q) (hit : p.txAt it = none) : q.txAt it = none := by
  cases hq : q.txAt it with
  | none => rfl
  | some tx => rw [h.left it tx hq] at hit; cases hit

theorem txAt_eq_none (h : it ∉ p.mapTx) : p.txAt it = none :=
  Option.eq_none_iff_forall_ne_some.mpr fun tx htx => h (mem_iff_txAt.mpr ⟨tx, htx⟩)

section

variable (h : Tracks E l G p)

include h

/-- `removeRecursive`: after it the transaction is not in the pool. -/
theorem Tracks.removeRecursive (tx : CTransaction) :
    (p.removeRecursive E tx).Yields
      fun q => Drops E l G p q ∧ q.txAt (tx.getHash E) = none := by
  unfold TxMemPool.removeRecursive
  simp only
  split
  · next hmem =>
    refine (h.removeWithDescendants (singleton_subset_iff.mpr
      ((h.shows.nodes _).mp hmem))).mono fun q hq => ⟨hq.1, hq.2 _ (Finset.mem_singleton_self _)⟩
  · next hmem =>
    refine (h.yields_spendersOf _ _).bind fun s hs => ?_
    exact (h.removeWithDescendants hs).mono fun q hq => ⟨hq.1, hq.1.gone (txAt_eq_none hmem)⟩

/-- A change of deltas alone. -/
theorem Tracks.ofDeltas (deltas : AList fun _ : Uint256 => D × Int64) :
    Tracks E l G { p with mapDeltas := deltas } :=
  ⟨⟨h.shows.nodes, h.shows.keys, h.shows.children, h.shows.parents⟩,
    h.counted, h.indexed.sameSpends ⟨fun _ => rfl, rfl, rfl⟩, h.children,
    h.closed, h.nodup, h.ordered⟩

/-- The delta of a transaction that is not in the pool is forgotten. -/
theorem Tracks.clearPrioritisation {hash : Uint256} (hgone : p.txAt hash = none) :
    Drops E l G p (p.clearPrioritisation hash) := by
  refine ⟨⟨G, h.ofDeltas _, fun _ _ _ _ hp => hp, fun hp it e he => ?_⟩, fun _ _ => id⟩
  have hne : it ≠ hash := by
    rintro rfl
    have hlook : p.mapTx.lookup it = some e := he
    rw [txAt, hlook] at hgone
    cases hgone
  rw [hp it e he, deltaOf, deltaOf, TxMemPool.clearPrioritisation, AList.lookup_erase_ne hne]

theorem Tracks.removeConflict (tx : CTransaction) (found : Option CTransaction) :
    (p.removeConflict E tx found).Yields (Drops E l G p) := by
  unfold TxMemPool.removeConflict
  split
  · exact .refl h
  · split
    · refine (h.removeRecursive _).map fun q ⟨hq, hgone⟩ => ?_
      obtain ⟨G', ht, hk⟩ := hq.tracks
      exact hq.trans hk (ht.clearPrioritisation hgone)
    · exact .refl h

theorem Tracks.removeConflicts (tx : CTransaction) :
    (p.removeConflicts E tx).Yields (Drops E l G p) :=
  Drops.bind (Drops.foldlM (fun _ _ _ hq => hq.removeConflict tx _) h _) fun _ _ _ hq =>
    Drops.foldlM (fun _ _ _ hr => hr.removeConflict tx _) hq _

end

theorem Drops.spends (h : Drops E l G p q) {a b : Uint256} (hab : q.Spends a b) : p.Spends a b := by
  obtain ⟨ha, tx, hb, ho⟩ := hab
  obtain ⟨tx', ha⟩ := mem_iff_txAt.mp ha
  exact ⟨mem_iff_txAt.mpr ⟨tx', h.left a tx' ha⟩, tx, h.left b tx hb, ho⟩

/-- In a block, what a transaction spends from in the pool comes before it. -/
def ParentsFirst (E : PoolEnv D) (p : TxMemPool D) (vtx : List CTransaction) : Prop :=
  ∀ pre tx post, vtx = pre ++ tx :: post → ∀ a, p.Spends a (tx.getHash E.toHashing) →
    ∃ tx' ∈ pre, tx'.getHash E.toHashing = a

/-- The body of the loop of `removeForBlock`, for a transaction without parents in the pool. -/
theorem Tracks.removeBlockTx (h : Tracks E l G p) (hroot : ∀ a, ¬ p.Spends a (tx.getHash E)) :
    (p.removeBlockTx E tx).Yields
      fun q => Drops E l G p q ∧ q.txAt (tx.getHash E) = none := by
  have hfirst : (if tx.getHash E ∈ p.mapTx then
      p.removeStaged {tx.getHash E} true else ok p).Yields
        fun q => Drops E l G p q ∧ q.txAt (tx.getHash E) = none := by
    split
    · next hmem =>
      have hnone : ∀ a, tx.getHash E ∉ G.children a := fun a ha =>
        hroot a ((h.children a _).mp ha).1
      refine (h.removeStaged (singleton_subset_iff.mpr ((h.shows.nodes _).mp hmem))
        (avoids_root hnone) (.inl rfl)).mono ?_
      exact fun q hq => ⟨hq.1, hq.2 _ (Finset.mem_singleton_self _)⟩
    · next hmem =>
      exact ⟨.refl h, txAt_eq_none hmem⟩
  refine hfirst.bind fun q ⟨hq, hgone⟩ => ?_
  obtain ⟨G', ht, hk⟩ := hq.tracks
  refine (ht.removeConflicts tx).map fun r hr => ?_
  obtain ⟨G'', ht', hk'⟩ := hr.tracks
  exact ⟨(hq.trans hk hr).trans (hk.trans hk') (ht'.clearPrioritisation (hr.gone hgone)),
    hr.gone hgone⟩

theorem Tracks.removeForBlock (h : Tracks E l G p) {vtx : List CTransaction}
    (hfirst : ParentsFirst E p vtx) : (p.removeForBlock E vtx).Yields (Drops E l G p) := by
  refine (Meets.foldlM (fun done q => Drops E l G p q ∧
    ∀ tx ∈ done, q.txAt (tx.getHash E) = none) ⟨.refl h, by simp⟩ ?_).mono
      fun _ hq => hq.1
  rintro done tx q ⟨rest, hsplit⟩ ⟨hq, hgone⟩
  obtain ⟨G', ht, hk⟩ := hq.tracks
  -- what it spends from in the pool has been removed before
  have hroot : ∀ a, ¬ q.Spends a (tx.getHash E) := by
    intro a ha
    obtain ⟨tx', htx', rfl⟩ := hfirst done tx rest hsplit a (hq.spends ha)
    obtain ⟨tx'', hsome⟩ := mem_iff_txAt.mp ha.1
    rw [hgone tx' htx'] at hsome
    cases hsome
  refine (ht.removeBlockTx hroot).mono ?_
  rintro r ⟨hr, hgone'⟩
  refine ⟨hq.trans hk hr, fun tx' htx' => ?_⟩
  rcases mem_append.mp htx' with hdone | hlast
  · exact hr.gone (hgone tx' hdone)
  · rw [List.mem_singleton.mp hlast]
    exact hgone'

/-- The error of `removeForReorg` where checks are on and an input is spent. -/
def spentInput : Failure := .assertion "!coin.IsSpent()"

theorem goesInReorg_meets (p : TxMemPool D) (V : ReorgView) (e : PoolEntry D) :
    (p.goesInReorg V e).Meets (· = spentInput) fun _ => True := by
  have himmature : ∀ vin, (p.spendsImmature V vin).Meets (· = spentInput) fun _ => True := by
    intro vin
    induction vin with
    | nil => exact trivial
    | cons txin vin ih =>
      unfold spendsImmature
      split
      · exact ih
      · simp only
        split
        · exact rfl
        · split
          · exact trivial
          · exact ih
  unfold goesInReorg
  split
  · exact trivial
  · split
    · exact himmature _
    · exact trivial

theorem Tracks.removeForReorg (h : Tracks E l G p) (V : ReorgView) :
    (p.removeForReorg V).Meets (· = spentInput) (Drops E l G p) := by
  have hset : (p.mapTx.entries.foldlM (fun txToRemove it =>
      (p.goesInReorg V it.2).map fun goes => if goes then insert it.1 txToRemove else txToRemove)
      ∅).Meets (· = spentInput) fun s => s ⊆ G.nodes := by
    refine Meets.foldlM (fun _ s => s ⊆ G.nodes) (empty_subset _) ?_
    rintro done it s ⟨rest, hsplit⟩ hs
    have hit : it.1 ∈ G.nodes := by
      rw [← h.shows.nodes]
      exact mem_map_of_mem (hsplit ▸ by simp)
    refine (p.goesInReorg_meets V it.2).map fun goes _ => ?_
    split
    · exact insert_subset hit hs
    · exact hs
  exact hset.bind fun s hs =>
    Yields.meets ((h.removeWithDescendants hs).mono fun q hq => hq.1)

theorem Tracks.removeWithAnchor (h : Tracks E l G p) (invalidRoot : Uint256) :
    (p.removeWithAnchor E invalidRoot).Yields (Drops E l G p) :=
  Drops.foldlM (fun _ _ tx hq => (hq.removeRecursive tx).mono fun _ hr => hr.1) h _

theorem Tracks.expire (h : Tracks E l G p) (time : ℤ) : (p.expire time).Yields (Drops E l G p) := by
  refine (h.removeWithDescendants fun x hx => ?_).mono fun q hq => hq.1
  rw [← ids_eq h.shows.nodes]
  exact (Finset.mem_filter.mp hx).1

/-- Every turn of `TrimToSize` removes an entry. -/
theorem Drops.card_lt (h : Drops E l G p q) {it : Uint256} (hit : it ∈ p.mapTx)
    (hgone : q.txAt it = none) : q.mapTx.keys.length < p.mapTx.keys.length := by
  rw [← card_ids, ← card_ids]
  refine card_lt_card ⟨fun x hx => ?_, fun hsub => ?_⟩
  · have hx' : x ∈ q.mapTx := AList.mem_keys.mpr (mem_toFinset.mp hx)
    obtain ⟨tx, htx⟩ := mem_iff_txAt.mp hx'
    exact mem_toFinset.mpr (AList.mem_keys.mp (mem_iff_txAt.mpr ⟨tx, h.left x tx htx⟩))
  · have hit' := hsub (mem_toFinset.mpr (AList.mem_keys.mp hit))
    obtain ⟨tx, htx⟩ := mem_iff_txAt.mp (AList.mem_keys.mpr (mem_toFinset.mp hit'))
    rw [hgone] at htx
    cases htx

theorem Tracks.trimLoop (sizelimit : ℕ) {n : ℕ} (h : Tracks E l G p)
    (hn : p.mapTx.keys.length ≤ n) :
    (trimLoop E sizelimit n p).Meets (· = trimmedEmpty) (Drops E l G p) := by
  induction n generalizing p G with
  | zero =>
    unfold trimLoop
    split
    · exact .refl h
    · split
      · exact rfl
      · next it hlow _ =>
        -- an entry is left, but there is none
        have hit := E.mem_of_lowestScore p it hlow
        rw [AList.mem_keys, length_eq_zero_iff.mp (Nat.le_zero.mp hn)] at hit
        cases hit
      · next heq => cases heq
  | succ n ih =>
    unfold trimLoop
    split
    · exact .refl h
    · split
      · exact rfl
      · next heq => cases heq
      · next it m hlow heq =>
        cases heq
        have hit := E.mem_of_lowestScore p it hlow
        refine Meets.bind (Yields.meets (h.removeWithDescendants
          (singleton_subset_iff.mpr ((h.shows.nodes it).mp hit)))) fun q ⟨hq, hgone⟩ => ?_
        obtain ⟨G', ht, hk⟩ := hq.tracks
        have hless := hq.card_lt hit (hgone it (Finset.mem_singleton_self it))
        exact (ih ht (by omega)).mono fun r hr => hq.trans hk hr

theorem Tracks.trimToSize (h : Tracks E l G p) (sizelimit : ℕ) :
    (p.trimToSize E sizelimit).Meets (· = trimmedEmpty) (Drops E l G p) :=
  h.trimLoop sizelimit le_rfl

theorem shows_empty (h : p.mapTx = ∅) (h' : p.mapLinks = ∅) : p.Shows .empty where
  nodes it := by simp [h, Dag.empty]
  keys it := by simp [h', Dag.empty]
  children a := by simp [childrenOf, linksOf, h', PoolLinks.empty, Dag.empty]
  parents a b := by simp [parentsOf, linksOf, h', PoolLinks.empty, Dag.empty]

/-- A pool without entries. -/
theorem tracks_empty (hnodup : l.Nodup) (h : p.mapTx = ∅) (h' : p.mapLinks = ∅)
    (hindexed : p.Indexed E False) : Tracks E l .empty p where
  shows := shows_empty h h'
  counted _ x hx := absurd hx (notMem_empty x)
  indexed := hindexed
  children a b := by simp [Dag.empty, Spends, h]
  closed a b hab := by simp [Spends, h] at hab
  nodup := hnodup
  ordered _ _ _ _ c hc := absurd hc (notMem_empty c)

theorem Tracks.clear (h : Tracks E l G p) : Drops E l G p p.clear where
  tracks := ⟨.empty, tracks_empty h.nodup rfl rfl (h.indexed.clear False.elim),
    fun _ _ _ _ _ x hx => absurd hx (notMem_empty x),
    fun _ it e he => by simp [TxMemPool.clear] at he⟩
  left it tx hit := by simp [txAt, TxMemPool.clear] at hit

/-! ## A transaction comes -/

/-- The entries after `addUnchecked`, up to their statistics. -/
theorem addUnchecked_entered (h : p.Shows G) {e : PoolEntry D} (hfresh : Fresh E p e) :
    (p.addUnchecked E e).Ensures fun q =>
      (∀ it, q.txAt it = if it = e.hash E then some e.tx else p.txAt it) ∧
        (Credited p → Credited q) := by
  refine (meets_true _).bind fun A _ => ?_
  obtain ⟨p2, hcame, heq⟩ := exists_came h hfresh A
  rw [heq]
  refine (p2.updateAncestorsOf_frame true _ A).bind fun p3 h3 => ?_
  refine (p3.updateEntryForAncestors_frame _ A).map fun p4 h4 =>
    ⟨fun it => ?_, fun hp => ?_⟩
  · refine ((h3.trans h4).sameSpends.txAt it).trans ?_
    rw [txAt, hcame.mapTx]
    split
    · rfl
    · rfl
  · have h2 : Credited p2 := by
      intro it n hn
      rw [hcame.mapTx] at hn
      rw [deltaOf, hcame.mapDeltas]
      split at hn
      · next hit =>
        cases hn
        rw [hit]
        rfl
      · exact hp it n hn
    exact (h3.trans h4).credited h2

/-- A transaction is new to the pool: it is not there, does not spend itself, and spends nothing
that another one spends. -/
structure NewTo (E : PoolEnv D) (p : TxMemPool D) (tx : CTransaction) : Prop where
  notMem : tx.getHash E.toHashing ∉ p.mapTx
  noSelf : ∀ o ∈ tx.prevouts, o.hash ≠ tx.getHash E.toHashing
  noConflict : ∀ tx', p.InPool E tx' → tx.prevouts.Disjoint tx'.prevouts

/-- What is spent in the pool with a new transaction. -/
theorem spends_add (hnew : NewTo E p tx)
    (hq : ∀ it, q.txAt it = if it = tx.getHash E then some tx else p.txAt it)
    (a b : Uint256) : q.Spends a b ↔
      (b = tx.getHash E ∧ a ∈ p.parentsInPool tx) ∨
      (b ≠ tx.getHash E ∧ (p.Spends a b ∨ (a = tx.getHash E ∧
        ∃ tx', p.txAt b = some tx' ∧ ∃ o ∈ tx'.prevouts, o.hash = a))) := by
  have hmem : a ∈ q.mapTx ↔ a = tx.getHash E ∨ a ∈ p.mapTx := by
    rw [mem_iff_txAt, hq, mem_iff_txAt]
    split
    · next ha => simp [ha]
    · next ha => simp [ha]
  unfold Spends
  rw [hmem, hq, mem_parentsInPool]
  by_cases hb : b = tx.getHash E
  · have hne : (∃ o ∈ tx.prevouts, o.hash = a) → a ≠ tx.getHash E := by
      rintro ⟨o, ho, rfl⟩
      exact hnew.noSelf o ho
    simp only [hb, if_true, Option.some.injEq, exists_eq_left', true_and, ne_eq, not_true_eq_false,
      false_and, or_false]
    rw [and_comm]
    exact and_congr_right fun ho => or_iff_right (hne ho)
  · simp only [hb, if_false, false_and, false_or, ne_eq, not_false_eq_true, true_and]
    rw [or_and_right, or_comm]

/-- What is in order for one graph is in order for another, after a call. -/
def Moves (E : PoolEnv D) (l : List Uint256) (G : Dag Uint256) (p q : TxMemPool D) : Prop :=
  ∃ G', Tracks E l G' q ∧ Keeps G G' p q

/-- No transaction of a part of the pool spends an output of `tx`. -/
def Childless (E : PoolEnv D) (p : TxMemPool D) (part : Uint256 → Prop) (tx : CTransaction) :
    Prop :=
  ∀ it tx', part it → p.txAt it = some tx' → ∀ o ∈ tx'.prevouts, o.hash ≠ tx.getHash E.toHashing

/-- The list of re-added transactions when one comes: there are none, or it joins them and what
it spends from in the pool is of them. -/
inductive Enlists (E : PoolEnv D) (p : TxMemPool D) (tx : CTransaction) :
    List Uint256 → List Uint256 → Prop
  | plain : Enlists E p tx [] []
  | readded {l : List Uint256} : tx.getHash E ∉ l → (∀ a ∈ p.parentsInPool tx, a ∈ l) →
      Enlists E p tx l (l ++ [tx.getHash E])

/-- **A transaction comes**, and is linked to what it spends from. -/
theorem Tracks.addUnchecked (h : Tracks E l G p) {l' : List Uint256} {e : CTxMemPoolEntry D}
    (nTime : ℤ) (spends : Bool) (hnew : NewTo E p e.tx) (hl : Enlists E p e.tx l l')
    (hchildless : p.Childless E (fun it => l' = [] ∨ it ∈ l) e.tx) :
    (p.addUnchecked E (.ofEntry e nTime spends)).Yields (Moves E l' G p) := by
  have hfresh : Fresh E p (.ofEntry e nTime spends) := ⟨hnew.notMem, hnew.noSelf, rfl⟩
  have hv : (PoolEntry.ofEntry e nTime spends).hash E ∉ G.nodes := fun hmem =>
    hnew.notMem ((h.shows.nodes _).mpr hmem)
  obtain ⟨A, -, hA⟩ := h.shows.exists_calculateMemPoolAncestors
    (PoolEntry.ofEntry e nTime spends).toCTxMemPoolEntry
  have hindexed : (p.addUnchecked E (.ofEntry e nTime spends)).Ensures (Indexed E False) :=
    (meets_true _).bind fun s _ =>
      h.indexed.addWithAncestors (fun u hu => ⟨hnew.noConflict u hu, False.elim⟩) s
  refine (((h.shows.yields_addUnchecked h.counted hfresh (lone_ofEntry e nTime spends) hv
    hA).and_ensures (addUnchecked_entered h.shows hfresh)).and_ensures hindexed).mono ?_
  rintro q ⟨⟨⟨hshows, hadded⟩, htxAt, hcredited⟩, hindexed⟩
  have hkeeps : Keeps G (G.addLeaf hv (h.shows.parentsInPool_subset e.tx)) p q :=
    ⟨fun _ _ _ _ hp => hp.addLeaf hadded hA, hcredited⟩
  have hspends := spends_add hnew htxAt
  have hne : ∀ x ∈ G.nodes, x ≠ e.tx.getHash E := by
    rintro x hx rfl
    exact hv hx
  have hmem : ∀ x, x ≠ e.tx.getHash E → (x ∈ l' ↔ x ∈ l) := by
    intro x hx
    cases hl with
    | plain => rfl
    | readded => simp [hx]
  refine ⟨_, ⟨hshows, hkeeps.counted h.counted, hindexed, fun a b => ?_, fun a b hab hb => ?_, ?_,
    fun pre b post hsplit c hc => ?_⟩, hkeeps⟩
  · change b ∈ G.leafChildren _ _ a ↔ _
    rw [mem_leafChildren, hspends]
    constructor
    · rintro (hc | ⟨ha, rfl⟩)
      · obtain ⟨hab, himp⟩ := (h.children a b).mp hc
        have haG := hne a (G.mem hc).1
        have hbG := hne b (G.mem hc).2
        exact ⟨.inr ⟨hbG, .inl hab⟩, by rwa [hmem a haG, hmem b hbG]⟩
      · refine ⟨.inl ⟨rfl, ha⟩, fun hal => ?_⟩
        cases hl with
        | plain => cases hal
        | readded => exact mem_append_right l (List.mem_singleton_self _)
    · rintro ⟨⟨rfl, ha⟩ | ⟨hb, hab | ⟨rfl, tx', hb', o, ho, hoa⟩⟩, himp⟩
      · exact .inr ⟨ha, rfl⟩
      · have haG := hne a ((h.shows.nodes a).mp hab.1)
        rw [hmem a haG, hmem b hb] at himp
        exact .inl ((h.children a b).mpr ⟨hab, himp⟩)
      · -- it would be linked to a child, but has none that counts
        refine absurd hoa (hchildless b tx' ?_ hb' o ho)
        cases hl with
        | plain => exact .inl rfl
        | readded => exact .inr ((hmem b hb).mp (himp (mem_append_right l
            (List.mem_singleton_self _))))
  · cases hl with
    | plain => cases hb
    | readded _ hP =>
      rcases (hspends a b).mp hab with ⟨rfl, ha⟩ | ⟨hbv, hab | ⟨rfl, -⟩⟩
      · exact mem_append_left _ (hP a ha)
      · exact mem_append_left _ (h.closed a b hab ((hmem b hbv).mp hb))
      · exact mem_append_right l (List.mem_singleton_self _)
  · cases hl with
    | plain => exact nodup_nil
    | readded hvl => exact nodup_append.mpr ⟨h.nodup, nodup_singleton _,
        fun a ha b hb hab => hvl (List.mem_singleton.mp hb ▸ hab ▸ ha)⟩
  · cases hl with
    | plain => simp at hsplit
    | readded =>
      rcases eq_nil_or_concat post with rfl | ⟨post, x, rfl⟩
      · obtain ⟨-, hlast⟩ := append_inj' hsplit rfl
        obtain rfl := (cons.inj hlast).1
        rcases mem_leafChildren.mp hc with hc | ⟨hvP, -⟩
        · exact absurd (G.mem hc).1 hv
        · exact absurd (h.shows.parentsInPool_subset e.tx hvP) hv
      · have hsplit' : l ++ [e.tx.getHash E] = (pre ++ b :: post) ++ [x] := by
          rw [hsplit]
          simp
        obtain ⟨hl, hx⟩ := append_inj' hsplit' rfl
        obtain rfl := (cons.inj hx).1
        rw [concat_eq_append]
        rcases mem_leafChildren.mp hc with hc | ⟨-, rfl⟩
        · exact mem_append_left _ (h.ordered pre b post hl c hc)
        · exact mem_append_right post (List.mem_singleton_self _)

/-! ## The rest is joined -/

theorem Indexed.mem_spenderIds (h : p.Indexed E False) {a b : Uint256} :
    b ∈ p.spenderIds E a ↔ ∃ tx, p.txAt b = some tx ∧ ∃ o ∈ tx.prevouts, o.hash = a := by
  simp only [spenderIds, List.map_map, mem_toFinset, List.mem_map, mem_filter, decide_eq_true_eq]
  constructor
  · rintro ⟨⟨o, tx⟩, ⟨hmem, hoa⟩, rfl⟩
    obtain ⟨hin, ho⟩ := (h.next o tx).mp (AList.mem_lookup_iff.mpr hmem)
    exact ⟨tx, hin, o, ho, hoa⟩
  · rintro ⟨tx, hb, o, ho, hoa⟩
    have hid := h.keyed b tx hb
    have hlook := (h.next o tx).mpr ⟨by rw [InPool, hid, hb], ho⟩
    exact ⟨⟨o, tx⟩, ⟨AList.mem_lookup_iff.mp hlook, hoa⟩, hid⟩

/-- **The re-added transactions are joined to the rest**, and none is waiting any more. -/
theorem Tracks.updateTransactionsFromBlock (h : Tracks E l G p) :
    (p.updateTransactionsFromBlock E l).Yields (Moves E [] G p) := by
  have hclosed : ∀ {a b}, b ∈ G.children a → (a ∈ l.toFinset ↔ b ∈ l.toFinset) := by
    intro a b hb
    obtain ⟨hab, himp⟩ := (h.children a b).mp hb
    rw [mem_toFinset, mem_toFinset]
    exact ⟨himp, h.closed a b hab⟩
  have hspenders : ∀ {a b}, b ∈ p.spenderIds E a → b ∈ G.nodes := by
    intro a b hb
    obtain ⟨tx, htx, -⟩ := h.indexed.mem_spenderIds.mp hb
    exact (h.shows.nodes b).mp (mem_iff_txAt.mpr ⟨tx, htx⟩)
  refine ((h.shows.yields_updateTransactionsFromBlock h.counted h.nodup hclosed hspenders
    h.ordered).and_ensures (p.updateTransactionsFromBlock_frame E l)).mono ?_
  rintro q ⟨⟨cache, hq⟩, hbase⟩
  have hkeeps : Keeps G (Dag.Batch.ofSet l.toFinset (p.spenderIds E) hclosed hspenders).joined p q :=
    ⟨fun _ _ _ _ hp => hq.exact h.shows.nodes hp, hbase.credited⟩
  have hspends : ∀ a b, q.Spends a b ↔ p.Spends a b := fun a b => by
    rw [Spends, Spends, hbase.mem_iff, hbase.sameSpends.txAt]
  refine ⟨_, ⟨hq.shows, hkeeps.counted h.counted, h.indexed.sameSpends hbase.sameSpends,
    fun a b => ?_, fun a b _ hb => absurd hb (by simp), nodup_nil, fun pre b post hl => ?_⟩, hkeeps⟩
  · change b ∈ Dag.Batch.joinedChildren _ _ a ↔ _
    rw [Dag.Batch.mem_joinedChildren, h.children, hspends]
    change _ ∨ (a ∈ G.nodes ∩ l.toFinset ∧ a ∈ G.nodes ∩ l.toFinset ∧
      b ∈ p.spenderIds E a \ l.toFinset) ↔ _
    simp only [mem_inter, mem_sdiff, mem_toFinset, h.indexed.mem_spenderIds,
      ← h.shows.nodes, not_mem_nil, false_imp_iff, and_true]
    constructor
    · rintro (hab | ⟨⟨ha, -⟩, -, hb, -⟩)
      · exact hab.1
      · exact ⟨ha, hb⟩
    · intro hab
      by_cases hout : a ∈ l ∧ b ∉ l
      · exact .inr ⟨⟨hab.1, hout.1⟩, ⟨hab.1, hout.1⟩, hab.2, hout.2⟩
      · exact .inl ⟨hab, fun ha => by_contra fun hb => hout ⟨ha, hb⟩⟩
  · simp at hl

end TxMemPool

end Passion
