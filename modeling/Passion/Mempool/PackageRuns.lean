import Passion.Mempool.Tracking

/-!
# Priorities

`PrioritiseTransaction` changes the modified fee of a transaction, and adds the change to the
statistics over descendants of its ancestors. The statistics over ancestors of its descendants
stay as they are. Counts do not change.
-/

namespace Passion

open Except Traversal Yields

variable {D : Type} {G : Dag Uint256}

namespace TxMemPool

open Dag AList

variable {E : PoolEnv D} {p q : TxMemPool D} {l : List Uint256}

/-- The modified fee of an entry changes by `change`, and `nFeeDelta` is added to the statistics
of the entries above it. -/
structure Prioritised (G : Dag Uint256) (hash : Uint256) (change nFeeDelta : Int64)
    (p q : TxMemPool D) : Prop where
  mapLinks : q.mapLinks = p.mapLinks
  mem : ∀ x, x ∈ q.mapTx ↔ x ∈ p.mapTx
  weight : ∀ side x, q.weight side x = p.weight side x + if x = hash then (0, change, 0, 0) else 0
  stat : ∀ side, ∀ x ∈ G.nodes, q.stat side x = p.stat side x +
    (if x = hash then (0, change, 0, 0) else 0) +
    if side = .down ∧ x ∈ (G.above hash).erase hash then (0, nFeeDelta, 0, 0) else 0

theorem weight_updateFeeDelta (e : PoolEntry D) (d : Int64) (side : Side) :
    (e.updateFeeDelta d).weight side = e.weight side + (0, d - e.feeDelta, 0, 0) := by
  cases side <;> simp [PoolEntry.weight, PoolEntry.updateFeeDelta, CTxMemPoolEntry.modifiedFee,
    CTxMemPoolEntry.nTxSize]

theorem stat_updateFeeDelta (e : PoolEntry D) (d : Int64) (side : Side) :
    (e.updateFeeDelta d).stat side = e.stat side + (0, d - e.feeDelta, 0, 0) := by
  cases side <;> simp [PoolEntry.stat, PoolEntry.updateFeeDelta]

variable {hash : Uint256}

/-- A value read from the entry at an id, where the entry at one id is replaced. -/
theorem getD_lookup_insert {M : Type} [AddMonoid M] {e e' : PoolEntry D} {m : M}
    {f : PoolEntry D → M} (he : p.mapTx.lookup hash = some e) (hf : f e' = f e + m) (x : Uint256) :
    (((p.mapTx.insert hash e').lookup x).map f).getD 0 =
      ((p.mapTx.lookup x).map f).getD 0 + if x = hash then m else 0 := by
  by_cases hx : x = hash
  · subst hx
    rw [lookup_insert, he, if_pos rfl]
    exact hf
  · rw [lookup_insert_ne hx, if_neg hx, add_zero]

/-- **`PrioritiseTransaction` of a transaction in the pool.** -/
theorem Shows.yields_prioritiseTransaction (h : p.Shows G) (hc : Counted G p) {e : PoolEntry D}
    (he : p.mapTx.lookup hash = some e) (dPriorityDelta : D) (nFeeDelta : Int64) :
    (p.prioritiseTransaction E hash dPriorityDelta nFeeDelta).Yields
      (Prioritised G hash (p.deltaOf hash + nFeeDelta - e.feeDelta) nFeeDelta p) := by
  have hmem : hash ∈ p.mapTx := lookup_isSome.mp (by simp [he])
  have hold : ((p.mapDeltas.lookup hash).getD (E.ops.ofInt 0, 0)).2 = p.deltaOf hash := by
    unfold deltaOf
    cases p.mapDeltas.lookup hash <;> rfl
  unfold prioritiseTransaction
  simp only [hmem, hold]
  generalize p.mapDeltas.insert hash _ = deltas
  set d := p.deltaOf hash + nFeeDelta with hd
  set p2 : TxMemPool D := { p with
    mapDeltas := deltas, mapTx := p.mapTx.insert hash (e.updateFeeDelta d) } with hp2
  have hmodify : modify { p with mapDeltas := deltas } hash
      (fun e => .ok (e.updateFeeDelta d)) = .ok p2 := by
    simp [TxMemPool.modify, entry, he, Except.bind, Except.map, hp2]
  have hmem2 : ∀ x, x ∈ p2.mapTx ↔ x ∈ p.mapTx := fun x => by
    rw [mem_insert]
    exact ⟨fun hx => hx.elim (fun hx => hx ▸ hmem) id, .inr⟩
  have h2 : p2.Shows G := ⟨fun it => (hmem2 it).trans (h.nodes it), h.keys, h.children, h.parents⟩
  have hstat2 : ∀ side x, p2.stat side x =
      p.stat side x + if x = hash then (0, d - e.feeDelta, 0, 0) else 0 :=
    fun side => getD_lookup_insert he (stat_updateFeeDelta e d side)
  -- its ancestors are those of the graph
  have hashG : hash ∈ G.nodes := (h.nodes hash).mp hmem
  have hin : ∀ x ∈ (G.above hash).erase hash, x ∈ G.nodes := fun x hx =>
    (mem_above.mp (Finset.mem_of_mem_erase hx)).1
  obtain ⟨q, hq, hlinks, hshift⟩ := exists_modifyAll_update
    (fun x hx => (h2.nodes x).mpr (hin x hx)) (0, nFeeDelta, 0, 0)
    fun x hx => by
      have hok : Figures.Ok .down (p.stat .down x) := hc.ok h.nodes (hin x hx)
      have hsame : p2.stat .down x = p.stat .down x := by
        rw [hstat2, if_neg (Finset.ne_of_mem_erase hx), add_zero]
      rw [← hsame] at hok
      exact ⟨by simpa using hok.1, by simpa using hok.2.1, by simpa using hok.2.2.1,
        by simpa using hok.2.2.2⟩
  refine yields_iff.mpr ⟨q, ?_, hlinks, fun x => (hshift.base.mem_iff x).trans (hmem2 x),
    fun side x => ?_, fun side x hx => ?_⟩
  · rw [hmodify, ok_bind, ancestorsOf_eq h2.nodes h2.keys h2.parents hashG]
    exact hq
  · exact (hshift.base.weight_eq side x).trans
      (getD_lookup_insert he (weight_updateFeeDelta e d side) x)
  · rw [hshift.stat side x ((h2.nodes x).mpr hx), hstat2]
    cases side with
    | up => simp
    | down =>
      rw [Pi.single_eq_same]
      simp only [true_and]

/-- The counts do not change. -/
theorem Prioritised.counted {change nFeeDelta : Int64} (hq : Prioritised G hash change nFeeDelta p q)
    (h : Counted G p) : Counted G q := by
  have hfee : ∀ t c [Decidable c] f, counts (t + if c then (0, f, 0, 0) else 0) = counts t := by
    intro t c _ f
    split <;> simp [counts_apply]
  intro side x hx
  rw [hq.stat side x hx, hfee, hfee, h side x hx]
  exact Finset.sum_congr rfl fun a _ => by rw [hq.weight, hfee]

/-- A priority changes no link and no count. -/
theorem Tracks.prioritiseTransaction (h : Tracks E l G p) (hash : Uint256) (dPriorityDelta : D)
    (nFeeDelta : Int64) :
    (p.prioritiseTransaction E hash dPriorityDelta nFeeDelta).Yields (Tracks E l G) := by
  cases he : p.mapTx.lookup hash with
  | none =>
    have hnot : hash ∉ p.mapTx := lookup_eq_none.mp he
    unfold TxMemPool.prioritiseTransaction
    simp only [hnot, if_false]
    exact h.ofDeltas _
  | some e =>
    refine ((h.shows.yields_prioritiseTransaction h.counted he dPriorityDelta nFeeDelta).and_ensures
      (p.prioritiseTransaction_sameSpends hash dPriorityDelta nFeeDelta)).mono ?_
    rintro q ⟨hq, hsame⟩
    have hspends : ∀ a b, q.Spends a b ↔ p.Spends a b := fun a b => by
      rw [Spends, Spends, hq.mem, hsame.txAt]
    refine ⟨⟨fun it => (hq.mem it).trans (h.shows.nodes it), fun it => ?_, fun a => ?_, fun a b => ?_⟩,
      hq.counted h.counted, h.indexed.sameSpends hsame, fun a b => ?_, fun a b hab => ?_, h.nodup,
      h.ordered⟩
    · rw [hq.mapLinks, h.shows.keys]
    · exact (congrArg PoolLinks.children (linksOf_congr hq.mapLinks a)).trans (h.shows.children a)
    · rw [← h.shows.parents, parentsOf, linksOf_congr hq.mapLinks]
    · rw [h.children, hspends]
    · exact h.closed a b ((hspends a b).mp hab)

end TxMemPool

/-! ## Package statistics through a run of calls

From the empty pool, through every sequence of calls: the links of an entry are the transactions of
the pool that it spends from and that spend it, and its statistics are sums over its ancestors and
its descendants. While blocks are disconnected the links are complete again when
`UpdateTransactionsFromBlock` has been called. A caller has to add a transaction only after those it
spends from and before those that spend it, re-added transactions apart, and a block that is
connected has to name parents before their children.
-/

namespace TxMemPool

variable (E : PoolEnv D) (p : TxMemPool D)

open Classical in
/-- An entry and its ancestors in the pool. -/
noncomputable def ancestors (x : Uint256) : Finset Uint256 :=
  p.ids.filter fun a => Relation.ReflTransGen p.Spends a x

open Classical in
/-- An entry and its descendants in the pool. -/
noncomputable def descendants (x : Uint256) : Finset Uint256 :=
  p.ids.filter fun b => Relation.ReflTransGen p.Spends x b

/-- The size of the transaction at an id. -/
def sizeAt (x : Uint256) : ℤ := ((p.mapTx.lookup x).map fun e => (e.nTxSize : ℤ)).getD 0

/-- The signature operations of the transaction at an id. -/
def sigOpsAt (x : Uint256) : ℤ := ((p.mapTx.lookup x).map fun e => (e.sigOpCount : ℤ)).getD 0

/-- **Links and statistics are exact.** -/
structure PackagesExact : Prop where
  parents : ∀ it ∈ p.mapTx, ∃ s, p.getMemPoolParents it = .ok s ∧ ∀ a, a ∈ s ↔ p.Spends a it
  children : ∀ it ∈ p.mapTx, ∃ s, p.getMemPoolChildren it = .ok s ∧ ∀ b, b ∈ s ↔ p.Spends it b
  withAncestors : ∀ it e, p.mapTx.lookup it = some e →
    e.nCountWithAncestors = (p.ancestors it).card ∧
    e.nSizeWithAncestors = ∑ a ∈ p.ancestors it, p.sizeAt a ∧
    e.nSigOpCountWithAncestors = ∑ a ∈ p.ancestors it, p.sigOpsAt a
  withDescendants : ∀ it e, p.mapTx.lookup it = some e →
    e.nCountWithDescendants = (p.descendants it).card ∧
    e.nSizeWithDescendants = ∑ b ∈ p.descendants it, p.sizeAt b

variable {E p} {x : Uint256}

theorem mem_ancestors {a : Uint256} :
    a ∈ p.ancestors x ↔ a ∈ p.ids ∧ Relation.ReflTransGen p.Spends a x := by
  simp [ancestors]

theorem mem_descendants {b : Uint256} :
    b ∈ p.descendants x ↔ b ∈ p.ids ∧ Relation.ReflTransGen p.Spends x b := by
  simp [descendants]

/-- Where none waits to be joined, the graph is what is spent. -/
theorem Tracks.reaches_iff (h : Tracks E [] G p) (a b : Uint256) :
    Relation.ReflTransGen p.Spends a b ↔ Reaches G.children a b := by
  have hrel : p.Spends = fun a b => b ∈ G.children a := by
    funext a b
    rw [h.children]
    simp
  rw [hrel]
  rfl

theorem Tracks.ancestors_eq (h : Tracks E [] G p) (x : Uint256) : p.ancestors x = G.above x := by
  ext a
  rw [mem_ancestors, Dag.mem_above, ids_eq h.shows.nodes, h.reaches_iff]

theorem Tracks.descendants_eq (h : Tracks E [] G p) (x : Uint256) :
    p.descendants x = G.below x := by
  ext b
  rw [mem_descendants, Dag.mem_below, ids_eq h.shows.nodes, h.reaches_iff]

theorem counts_weight (hx : x ∈ p.mapTx) (side : Dag.Side) : counts (p.weight side x) =
    (p.sizeAt x, 1, if side = .up then p.sigOpsAt x else 0) := by
  obtain ⟨e, he⟩ := exists_lookup hx
  rw [weight_eq he, sizeAt, sigOpsAt, he]
  cases side <;> rfl

/-- The counts of an entry are sums over its package. -/
theorem Tracks.counts_stat {l : List Uint256} (h : Tracks E l G p) {it : Uint256} {e : PoolEntry D}
    (he : p.mapTx.lookup it = some e) (side : Dag.Side) : counts (e.stat side) =
      (∑ a ∈ G.span side it, p.sizeAt a, ((G.span side it).card : ℤ),
        ∑ a ∈ G.span side it, if side = .up then p.sigOpsAt a else 0) := by
  have hit : it ∈ G.nodes := (h.shows.nodes it).mp (AList.lookup_isSome.mp (by simp [he]))
  rw [← stat_eq he, h.counted side it hit, Finset.sum_congr rfl fun a ha => counts_weight
    ((h.shows.nodes a).mpr (Dag.mem_of_span ha)) side]
  simp [Prod.ext_iff, Prod.fst_sum, Prod.snd_sum]

/-- **What the calls keep is exact where none waits to be joined.** -/
theorem Tracks.packagesExact (h : Tracks E [] G p) : p.PackagesExact where
  parents it hit := by
    refine ⟨_, getMemPoolParents_eq ((h.shows.keys it).mpr ((h.shows.nodes it).mp hit)), fun a => ?_⟩
    rw [h.shows.parents, h.children]
    simp
  children it hit := by
    refine ⟨_, getMemPoolChildren_eq ((h.shows.keys it).mpr ((h.shows.nodes it).mp hit)), fun b => ?_⟩
    rw [h.shows.children, h.children]
    simp
  withAncestors it e he := by
    obtain ⟨hsize, hcount, hsigOps⟩ := by simpa only [Prod.ext_iff] using h.counts_stat he .up
    rw [h.ancestors_eq]
    exact ⟨by exact_mod_cast hcount, hsize, hsigOps⟩
  withDescendants it e he := by
    obtain ⟨hsize, hcount, -⟩ := by simpa only [Prod.ext_iff] using h.counts_stat he .down
    rw [h.descendants_eq]
    exact ⟨by exact_mod_cast hcount, hsize⟩

end TxMemPool

/-! ## Runs -/

/-- A pool, with the transactions that were re-added and are not joined to the rest yet. -/
structure ReorgPool (D : Type) where
  pool : TxMemPool D
  vHashUpdate : List Uint256

/-- A call, or `addUnchecked` of a transaction of a disconnected block. -/
inductive ReorgCall (D : Type)
  | call (c : PoolCall D)
  | readd (e : CTxMemPoolEntry D) (nTime : ℤ) (spendsCoinbaseOrCoinstake : Bool)

namespace ReorgPool

open TxMemPool

variable (E : PoolEnv D) (s : ReorgPool D)

/-- A pool no call was made to. -/
def start (n : ℕ) : ReorgPool D := ⟨empty n, []⟩

/-- The list of re-added transactions after a call. -/
def waiting : PoolCall D → List Uint256
  | .updateTransactionsFromBlock _ => []
  | _ => s.vHashUpdate

/-- A call. -/
def step : ReorgCall D → Result (ReorgPool D)
  | .call c => (s.pool.step E c).map fun p => ⟨p, s.waiting c⟩
  | .readd e nTime spends => (s.pool.step E (.addUnchecked e nTime spends)).map
      fun p => ⟨p, s.vHashUpdate ++ [e.hash E.toHashing]⟩

/-- Blocks are disconnected from the last to the first and completely: a transaction comes back
once, after what it spends from and before what spends it, and all that came back are joined. -/
def Completes : ReorgCall D → Prop
  | .readd e _ _ => NewTo E s.pool e.tx ∧ e.hash E.toHashing ∉ s.vHashUpdate ∧
      (∀ a ∈ s.pool.parentsInPool e.tx, a ∈ s.vHashUpdate) ∧
      s.pool.Childless E (· ∈ s.vHashUpdate) e.tx
  | .call (.updateTransactionsFromBlock l) => l = s.vHashUpdate
  | .call _ => True

/-- What a caller of the other functions has to see to. -/
def Orderly : ReorgCall D → Prop
  | .call (.addUnchecked e _ _) => s.vHashUpdate = [] ∧ NewTo E s.pool e.tx ∧
      s.pool.Childless E (fun _ => True) e.tx
  | .call (.removeForBlock vtx) => ParentsFirst E s.pool vtx
  | _ => True

/-- Where a call may stop the node: a pool without entries uses too much memory, or an input of
a transaction is spent where checks are on. -/
def MayStop (e : Failure) : Prop := e = trimmedEmpty ∨ e = spentInput

variable {E s}

/-- After a call: what was in order is in order, and statistics of all kinds are kept unless a
priority was set. -/
structure Follows (E : PoolEnv D) (G : Dag Uint256) (s : ReorgPool D) (c : ReorgCall D)
    (G' : Dag Uint256) (t : ReorgPool D) : Prop where
  tracks : TxMemPool.Tracks E t.vHashUpdate G' t.pool
  keeps : (∀ hash d f, c ≠ .call (.prioritiseTransaction hash d f)) → Keeps G G' s.pool t.pool

/-- **One call.** -/
theorem follows_step (h : TxMemPool.Tracks E s.vHashUpdate G s.pool) {c : ReorgCall D}
    (hcompletes : s.Completes E c) (horderly : s.Orderly E c) :
    (s.step E c).Meets MayStop fun t => ∃ G', Follows E G s c G' t := by
  have hmoves : ∀ {x : Result (TxMemPool D)} {l : List Uint256}, x.Meets MayStop
      (Moves E l G s.pool) → (x.map fun p => mk p l).Meets MayStop
        fun t => ∃ G', Follows E G s c G' t := fun hx =>
    hx.map fun q ⟨G', ht, hk⟩ => ⟨G', ht, fun _ => hk⟩
  have hdrops : ∀ {x : Result (TxMemPool D)}, x.Meets MayStop (Drops E s.vHashUpdate G s.pool) →
      (x.map fun p => mk p s.vHashUpdate).Meets MayStop
        fun t => ∃ G', Follows E G s c G' t := fun hx => hmoves (hx.mono fun q hq => hq.tracks)
  cases c with
  | readd e nTime spends =>
    obtain ⟨hnew, hnot, hparents, hchildless⟩ := hcompletes
    exact hmoves (meets (h.addUnchecked nTime spends hnew (.readded hnot hparents)
      fun it tx hpart => hchildless it tx (hpart.resolve_left (by simp))))
  | call c =>
    cases c with
    | addUnchecked e nTime spends =>
      obtain ⟨hnone, hnew, hchildless⟩ := horderly
      obtain ⟨p, vHashUpdate⟩ := s
      obtain rfl : vHashUpdate = [] := hnone
      exact hmoves (meets (h.addUnchecked nTime spends hnew .plain
        fun it tx _ => hchildless it tx trivial))
    | removeRecursive tx =>
      exact hdrops (meets ((h.removeRecursive tx).mono fun _ hq => hq.1))
    | removeForReorg view =>
      exact hdrops ((h.removeForReorg view).weaken fun _ he => .inr he)
    | removeWithAnchor invalidRoot => exact hdrops (meets (h.removeWithAnchor invalidRoot))
    | removeConflicts tx => exact hdrops (meets (h.removeConflicts tx))
    | removeForBlock vtx => exact hdrops (meets (h.removeForBlock horderly))
    | expire time => exact hdrops (meets (h.expire time))
    | trimToSize sizelimit => exact hdrops ((h.trimToSize sizelimit).weaken fun _ he => .inl he)
    | clear => exact hdrops (x := .ok s.pool.clear) h.clear
    | prioritiseTransaction hash dPriorityDelta nFeeDelta =>
      exact (meets (h.prioritiseTransaction hash dPriorityDelta nFeeDelta)).map
        fun q hq => ⟨G, hq, fun hnot => absurd rfl (hnot hash dPriorityDelta nFeeDelta)⟩
    | updateTransactionsFromBlock l =>
      obtain rfl : l = s.vHashUpdate := hcompletes
      exact hmoves (meets h.updateTransactionsFromBlock)

end ReorgPool

/-! Runs that can be checked by hand. -/

namespace PackageSample

open TxMemPool TxMemPool.PoolSample ReorgPool

/-- A transaction. -/
def parent : CTransaction := spending [⟨BaseUint.ofNat 1, 0⟩]

/-- A transaction that spends the output of `parent`. -/
def child : CTransaction := spending [⟨parent.getHash env, 0⟩]

/-- Another one. -/
def rival : CTransaction := spending [⟨parent.getHash env, 0⟩, ⟨BaseUint.ofNat 2, 0⟩]

/-- A transaction that spends the output of `child`. -/
def grandchild : CTransaction := spending [⟨child.getHash env, 0⟩]

/-- `tx` may come, as a check of the entries of a pool. -/
def Admits (p : TxMemPool Unit) (tx : CTransaction) (part : Uint256 → Bool) : Prop :=
  (∀ o ∈ tx.prevouts, o.hash ≠ tx.getHash env) ∧
    ∀ it e, p.mapTx.lookup it = some e → it ≠ tx.getHash env ∧
      (∀ o ∈ tx.prevouts, o ∉ e.tx.prevouts) ∧
      (part it = true → ∀ o ∈ e.tx.prevouts, o.hash ≠ tx.getHash env)

instance (p : TxMemPool Unit) (tx : CTransaction) (part : Uint256 → Bool) :
    Decidable (Admits p tx part) :=
  inferInstanceAs (Decidable (_ ∧ _))

theorem Admits.newTo {p : TxMemPool Unit} {tx : CTransaction} {part : Uint256 → Bool}
    (h : Admits p tx part) : NewTo env p tx ∧ p.Childless env (fun it => part it = true) tx := by
  refine ⟨⟨fun hmem => ?_, h.1, fun tx' htx' => ?_⟩, fun it tx' hpart htx' => ?_⟩
  · obtain ⟨e, he⟩ := exists_lookup hmem
    exact (h.2 _ e he).1 rfl
  · obtain ⟨e, he, rfl⟩ := Option.map_eq_some_iff.mp htx'
    exact (h.2 _ e he).2.1
  · obtain ⟨e, he, rfl⟩ := Option.map_eq_some_iff.mp htx'
    exact (h.2 _ e he).2.2 hpart

/-- A check that blocks are disconnected completely. -/
def rejoins (s : ReorgPool Unit) : ReorgCall Unit → Bool
  | .readd e _ _ => Admits s.pool e.tx (fun it => it ∈ s.vHashUpdate) ∧
      e.hash env ∉ s.vHashUpdate ∧ ∀ a ∈ s.pool.parentsInPool e.tx, a ∈ s.vHashUpdate
  | .call (.updateTransactionsFromBlock l) => l = s.vHashUpdate
  | .call _ => true

/-- A check of what enters. -/
def enters (s : ReorgPool Unit) : ReorgCall Unit → Bool
  | .call (.addUnchecked e _ _) => s.vHashUpdate = [] ∧ Admits s.pool e.tx fun _ => true
  | .call (.removeForBlock _) => false
  | _ => true

theorem completes_of_rejoins {s : ReorgPool Unit} {c : ReorgCall Unit} (h : rejoins s c = true) :
    s.Completes env c := by
  cases c with
  | readd e nTime spends =>
    obtain ⟨hadmits, hnot, hparents⟩ := of_decide_eq_true h
    exact ⟨hadmits.newTo.1, hnot, hparents, by simpa using hadmits.newTo.2⟩
  | call c =>
    cases c with
    | updateTransactionsFromBlock l => exact of_decide_eq_true (p := l = _) h
    | _ => exact trivial

theorem orderly_of_enters {s : ReorgPool Unit} {c : ReorgCall Unit} (h : enters s c = true) :
    s.Orderly env c := by
  cases c with
  | readd e nTime spends => exact trivial
  | call c =>
    cases c with
    | addUnchecked e nTime spends =>
      obtain ⟨hnone, hadmits⟩ := of_decide_eq_true h
      exact ⟨hnone, hadmits.newTo.1, by simpa using hadmits.newTo.2⟩
    | removeForBlock vtx => cases h
    | _ => exact trivial

variable {l : List (ReorgCall Unit)}

theorem eachAction_completes
    (h : Run.EachAction (ReorgPool.step env) (start 0) (fun s c => rejoins s c = true) l) :
    Run.EachAction (ReorgPool.step env) (start 0) (Completes env) l :=
  fun pre c post s hl hpre => completes_of_rejoins (h pre c post s hl hpre)

/-- A block with `parent` is disconnected while `child` and `grandchild` are in the pool. -/
def disconnected : List (ReorgCall Unit) :=
  [.call (.addUnchecked (entryOf child) 0 false),
    .call (.addUnchecked (entryOf grandchild) 0 false), .readd (entryOf parent) 0 false,
    .call (.updateTransactionsFromBlock [parent.getHash env.toHashing])]

end PackageSample

namespace ReorgPool

end ReorgPool

namespace PackageSample

open TxMemPool TxMemPool.PoolSample ReorgPool

/-- Runs that break one condition each: a child enters before its parent; a transaction enters
twice; one enters while another waits to be joined; two that spend the same output enter, and
what they spend comes back; a block names a child before its parent. -/
def careless : List (List (ReorgCall Unit)) :=
  [[.call (.addUnchecked (entryOf child) 0 false),
      .call (.addUnchecked (entryOf parent) 0 false)],
    [.call (.addUnchecked (entryOf parent) 0 false),
      .call (.addUnchecked (entryOf child) 0 false),
      .call (.addUnchecked (entryOf child) 0 false)],
    [.readd (entryOf parent) 0 false, .call (.addUnchecked (entryOf child) 0 false),
      .call (.updateTransactionsFromBlock [parent.getHash env.toHashing])],
    [.call (.addUnchecked (entryOf child) 0 false),
      .call (.addUnchecked (entryOf rival) 0 false), .readd (entryOf parent) 0 false,
      .call (.updateTransactionsFromBlock [parent.getHash env.toHashing])],
    [.call (.addUnchecked (entryOf parent) 0 false),
      .call (.addUnchecked (entryOf child) 0 false),
      .call (.addUnchecked (entryOf grandchild) 0 false),
      .call (.removeForBlock [child, parent])]]

/-- A flaw that can be seen: an entry with more ancestors than the pool has entries, or a
transaction that is not linked to one that spends it. -/
def Flawed (p : TxMemPool Unit) : Prop :=
  (∃ e ∈ p.mapTx.entries, (p.ids.card : ℤ) < e.2.nCountWithAncestors) ∨
    ∃ e ∈ p.mapTx.entries, ∃ o ∈ e.2.tx.prevouts, o.hash ∈ p.mapTx ∧ e.1 ∉ p.childrenOf o.hash

instance (p : TxMemPool Unit) : Decidable (Flawed p) := inferInstanceAs (Decidable (_ ∨ _))

theorem Flawed.not_packagesExact {p : TxMemPool Unit} (h : Flawed p) : ¬ p.PackagesExact := by
  intro hexact
  rcases h with ⟨e, he, hmany⟩ | ⟨e, he, o, ho, hmem, hnot⟩
  · -- all ancestors are in the pool
    have hcount := (hexact.withAncestors e.1 e.2 (AList.mem_lookup_iff.mpr he)).1
    have hle : (p.ancestors e.1).card ≤ p.ids.card :=
      Finset.card_le_card fun a ha => (mem_ancestors.mp ha).1
    omega
  · obtain ⟨s, hs, hiff⟩ := hexact.children o.hash hmem
    have hspends : p.Spends o.hash e.1 :=
      ⟨hmem, e.2.tx, by rw [txAt, AList.mem_lookup_iff.mpr he]; rfl, o, ho, rfl⟩
    rw [of_getMemPoolChildren hs] at hiff
    exact hnot ((hiff _).mpr hspends)

end PackageSample

namespace ReorgPool

end ReorgPool

end Passion
