import Passion.Chain.ChainIndex

/-!
# The totals of a chain

An entry carries the number of transactions and the Sapling value of its whole chain, `nChainTx` and
`nChainSaplingValue`, once the data of all its ancestors has arrived; until then it waits for its
parent in `mapBlocksUnlinked`. `ReceivedBlockTransactions` links a block and the descendants that
wait for it, breadth first.
-/

namespace Passion

open List AList MachineNumber CBlockIndex Worklist

namespace CBlockIndex

/-- All blocks of the chain that ends in the entry have their data. -/
def Complete (m : BlockMap) (p : CBlockIndex) : Prop :=
  ∀ a ∈ p.ancestors m, a.nStatus.haveData = true

instance (m : BlockMap) (p : CBlockIndex) : Decidable (p.Complete m) :=
  inferInstanceAs (Decidable (∀ a ∈ p.ancestors m, a.nStatus.haveData = true))

/-- The number of transactions of the chain. -/
def chainTxs (m : BlockMap) (p : CBlockIndex) : ℕ := ((p.ancestors m).map (·.nTx)).sum

/-- The Sapling values of the chain, summed up. -/
def chainSapling (m : BlockMap) (p : CBlockIndex) : ℤ :=
  ((p.ancestors m).map (·.nSaplingValue)).sum

end CBlockIndex

/-- The two entries know the same of their block. -/
structure SameAccount (p p' : CBlockIndex) : Prop where
  hashBlock : p'.hashBlock = p.hashBlock
  pprev : p'.pprev = p.pprev
  nHeight : p'.nHeight = p.nHeight
  haveData : p'.nStatus.haveData = p.nStatus.haveData
  nTx : p'.nTx = p.nTx
  nSaplingValue : p'.nSaplingValue = p.nSaplingValue
  nVersion : p'.nVersion = p.nVersion

variable {m m' : BlockMap} {p p' p'' : CBlockIndex} {hash : Uint256}

namespace SameAccount

theorem refl (p : CBlockIndex) : SameAccount p p := ⟨rfl, rfl, rfl, rfl, rfl, rfl, rfl⟩

theorem keepsPlace : KeepsPlace SameAccount :=
  fun _ _ h => ⟨h.hashBlock, h.pprev, h.nHeight⟩

/-- Of the ancestors the same is known. -/
theorem map_ancestors (h : m.Related SameAccount m') (hm : m.IsTree) {α : Type}
    {g : CBlockIndex → α} (hg : ∀ {p p'}, SameAccount p p' → g p' = g p)
    (hp : m.lookup hash = some p) (hp' : m'.lookup hash = some p') :
    (p'.ancestors m').map g = (p.ancestors m).map g := by
  rw [← forall₂_eq_eq_eq, forall₂_map_left_iff, forall₂_map_right_iff]
  exact (h.ancestors keepsPlace hm hp hp').flip.imp fun _ _ => hg

section

variable (h : m.Related SameAccount m') (hm : m.IsTree) (hp : m.lookup hash = some p)
  (hp' : m'.lookup hash = some p')

include h hm hp hp'

theorem complete_iff : p'.Complete m' ↔ p.Complete m := by
  have hiff : ∀ l : List CBlockIndex, (∀ a ∈ l, a.nStatus.haveData = true) ↔
      ∀ b ∈ l.map (fun a => a.nStatus.haveData), b = true := by
    intro l
    rw [forall_mem_map]
  rw [Complete, Complete, hiff, hiff, map_ancestors h hm haveData hp hp']

theorem chainTxs : p'.chainTxs m' = p.chainTxs m :=
  congrArg sum (map_ancestors h hm nTx hp hp')

theorem chainSapling : p'.chainSapling m' = p.chainSapling m :=
  congrArg sum (map_ancestors h hm nSaplingValue hp hp')

end

end SameAccount

theorem BlockMap.IsTree.complete_iff (hm : m.IsTree) (hp : m.lookup hash = some p) :
    p.Complete m ↔ p.nStatus.haveData = true ∧
      ∀ g q, p.pprev = some g → m.lookup g = some q → q.Complete m :=
  hm.forall_ancestors hp

/-! ## The totals -/

/-- **The totals of an entry are right.** -/
structure EntryTotals (m : BlockMap) (p : CBlockIndex) : Prop where
  /-- A block that has its data has transactions. -/
  counted : p.nStatus.haveData = true ↔ p.nTx ≠ 0
  amount : toInt64 p.nSaplingValue = p.nSaplingValue
  /-- The chain does not have too many transactions to count. -/
  small : p.chainTxs m < 2 ^ 32
  linked : p.nChainTx ≠ 0 → p.Complete m ∧ p.nChainTx = p.chainTxs m ∧
    p.nChainSaplingValue = some (toInt64 (p.chainSapling m))
  unlinked : p.nChainTx = 0 → p.nChainSaplingValue = none

/-- **The totals of linked entries are right**, in an index of which some entries may not be
linked yet. -/
structure Totals (m : BlockMap) : Prop where
  tree : m.IsTree
  entry : ∀ {hash p}, m.lookup hash = some p → EntryTotals m p

/-- An entry whose parent is linked may be linked: it has its data, and its parent, if it has
one, is linked. -/
structure Ready (m : BlockMap) (hash : Uint256) (p : CBlockIndex) : Prop where
  entry : m.lookup hash = some p
  data : p.nStatus.haveData = true
  parent : ∀ g q, p.pprev = some g → m.lookup g = some q → q.nChainTx ≠ 0

/-- The totals an entry gets when it is linked. -/
structure HasTotals (m : BlockMap) (p p' : CBlockIndex) : Prop where
  same : SameAccount p p'
  nChainTx : p'.nChainTx = p.chainTxs m
  nChainSaplingValue : p'.nChainSaplingValue = some (toInt64 (p.chainSapling m))

namespace Totals

section

variable (h : Totals m) (hready : Ready m hash p)

include h hready

theorem chainTxs_ne_zero : p.chainTxs m ≠ 0 := by
  have hpos : p.nTx ≠ 0 := (h.entry hready.entry).counted.mp hready.data
  cases hprev : p.pprev with
  | none => rwa [chainTxs, h.tree.sum_root hready.entry _ hprev]
  | some g =>
    obtain ⟨q, hq, -⟩ := h.tree.parent hready.entry hprev
    rw [chainTxs, h.tree.sum_child hready.entry _ hprev hq]
    omega

theorem complete_of_ready : p.Complete m := by
  rw [h.tree.complete_iff hready.entry]
  exact ⟨hready.data, fun g q hprev hq => ((h.entry hq).linked (hready.parent g q hprev hq)).1⟩

/-- The sums made of the totals of the parent are those of the chain. -/
theorem sums_of_ready :
    (((p.prev m).map (·.nChainTx)).getD 0 + p.nTx) % 2 ^ 32 = p.chainTxs m ∧
      (match p.prev m with
        | some q => q.nChainSaplingValue.map fun v => toInt64 (v + p.nSaplingValue)
        | none => some p.nSaplingValue) = some (toInt64 (p.chainSapling m)) := by
  have hentry := h.entry hready.entry
  have hsmall := hentry.small
  cases hprev : p.pprev with
  | none =>
    have hnone : p.prev m = none := by rw [CBlockIndex.prev, hprev]; rfl
    rw [chainTxs, h.tree.sum_root hready.entry _ hprev] at *
    rw [hnone, chainSapling, h.tree.sum_root hready.entry _ hprev]
    exact ⟨by simpa using Nat.mod_eq_of_lt hsmall, by rw [hentry.amount]⟩
  | some g =>
    obtain ⟨q, hq, -⟩ := h.tree.parent hready.entry hprev
    have hsome : p.prev m = some q := by rw [CBlockIndex.prev, hprev]; exact hq
    obtain ⟨-, hnum, hval⟩ := (h.entry hq).linked (hready.parent g q hprev hq)
    rw [chainTxs, h.tree.sum_child hready.entry _ hprev hq] at *
    rw [chainSapling, h.tree.sum_child hready.entry _ hprev hq, hsome]
    refine ⟨?_, ?_⟩
    · rw [Option.map_some, Option.getD_some, hnum, Nat.mod_eq_of_lt hsmall]
    · simp [hval, chainSapling]

end

/-- What is known of the blocks does not change, and the totals of an entry are as before. -/
theorem entry_of_related {m' : BlockMap} {q q' : CBlockIndex} (h : Totals m)
    (hrel : m.Related SameAccount m') (hq : m.lookup hash = some q)
    (hq' : m'.lookup hash = some q') (hsame : SameAccount q q')
    (hlinked : q'.nChainTx ≠ 0 → q.Complete m ∧ q'.nChainTx = q.chainTxs m ∧
      q'.nChainSaplingValue = some (toInt64 (q.chainSapling m)))
    (hunlinked : q'.nChainTx = 0 → q'.nChainSaplingValue = none) : EntryTotals m' q' where
  counted := by
    rw [hsame.haveData, hsame.nTx]
    exact (h.entry hq).counted
  amount := by
    rw [hsame.nSaplingValue]
    exact (h.entry hq).amount
  small := by
    rw [SameAccount.chainTxs hrel h.tree hq hq']
    exact (h.entry hq).small
  linked := by
    rw [SameAccount.complete_iff hrel h.tree hq hq', SameAccount.chainTxs hrel h.tree hq hq',
      SameAccount.chainSapling hrel h.tree hq hq']
    exact hlinked
  unlinked := hunlinked

/-- **Linking an entry keeps the totals right**, its own included. -/
theorem insert_linked (h : Totals m) (hready : Ready m hash p) (hp' : HasTotals m p p') :
    Totals (m.insert hash p') := by
  have hrel := BlockMap.related_insert SameAccount.refl hready.entry hp'.same
  refine ⟨hrel.isTree SameAccount.keepsPlace h.tree, fun {k q'} hq' => ?_⟩
  obtain ⟨q, hq, hqq⟩ := hrel.lookup_right hq'
  by_cases hk : k = hash
  · subst hk
    rw [lookup_insert] at hq'
    cases hq'
    cases hq.symm.trans hready.entry
    refine h.entry_of_related hrel hq (lookup_insert _) hqq (fun _ =>
      ⟨h.complete_of_ready hready, hp'.nChainTx, hp'.nChainSaplingValue⟩) fun hzero => ?_
    exact absurd (hp'.nChainTx ▸ hzero) (h.chainTxs_ne_zero hready)
  · have hsame := hq'
    rw [lookup_insert_ne hk] at hsame
    cases hq.symm.trans hsame
    exact h.entry_of_related hrel hq hq' hqq (h.entry hq).linked (h.entry hq).unlinked

end Totals

/-! ## Linking the entries that wait -/

/-- A block that has its data waits for its parent: neither is linked. -/
structure Waits (m : BlockMap) (g hash : Uint256) : Prop where
  entry : ∃ p, m.lookup hash = some p ∧ p.pprev = some g ∧ p.nStatus.haveData = true ∧
    p.nChainTx = 0
  parent : ∃ q, m.lookup g = some q ∧ q.nChainTx = 0

theorem Waits.insert_ne {g k : Uint256}
    (h : Waits m g hash) (hne : hash ≠ k) (hg : g ≠ k) : Waits (m.insert k p) g hash :=
  ⟨by rw [lookup_insert_ne hne]; exact h.entry, by rw [lookup_insert_ne hg]; exact h.parent⟩

/-- Every entry that has its data and is not linked is to be looked at, or waits for its
parent. -/
structure Waiting (todo : List Uint256) (waiting : List (Uint256 × Uint256)) (m : BlockMap) :
    Prop extends Totals m where
  placed : ∀ {hash p}, m.lookup hash = some p → p.nStatus.haveData = true → p.nChainTx = 0 →
    hash ∈ todo ∨ ∃ g, p.pprev = some g ∧ (g, hash) ∈ waiting
  waits : ∀ {g hash}, (g, hash) ∈ waiting → Waits m g hash
  todo_nodup : todo.Nodup
  waiting_nodup : waiting.Nodup

/-- Nothing is to be linked in an empty map. -/
theorem Waiting.empty : Waiting [] [] ∅ := by
  have hempty : ∀ {hash : Uint256} {p : CBlockIndex},
      (∅ : BlockMap).lookup hash = some p → False := by
    intro hash p hp
    cases hp
  refine { tree := ⟨?_, ?_, ?_, ?_⟩, entry := ?_, placed := ?_,
           waits := fun hw => absurd hw not_mem_nil, todo_nodup := nodup_nil,
           waiting_nodup := nodup_nil }
  all_goals exact fun hp => (hempty hp).elim

/-- **The loop invariant of the queue**: what is in it may be linked. -/
structure Linking (queue : List Uint256) (waiting : List (Uint256 × Uint256)) (m : BlockMap) :
    Prop extends Waiting queue waiting m where
  queued : ∀ {hash}, hash ∈ queue → ∃ p, Ready m hash p ∧ p.nChainTx = 0

namespace Linking

variable {queue : List Uint256} {waiting : List (Uint256 × Uint256)} {k g : Uint256}

/-- A queued entry does not wait: its parent is linked. -/
theorem not_waits_of_queued (h : Linking queue waiting m) (hk : k ∈ queue) : (g, k) ∉ waiting := by
  intro hw
  obtain ⟨p, hready, -⟩ := h.queued hk
  obtain ⟨⟨p₂, hp₂, hprev, -⟩, q, hq, hzero⟩ := h.waits hw
  cases hp₂.symm.trans hready.entry
  exact hready.parent g q hprev hq hzero

/-- **One turn of the loop.** -/
theorem turn (h : Linking (k :: queue) waiting m) (hready : Ready m k p) (hp' : HasTotals m p p') :
    Linking (queue ++ waitingFor waiting k) (others waiting k)
      (m.insert k p') := by
  have htotals := h.toTotals.insert_linked hready hp'
  have hlinked : p'.nChainTx ≠ 0 := by
    rw [hp'.nChainTx]
    exact h.toTotals.chainTxs_ne_zero hready
  have hlook : ∀ {j q}, j ≠ k → (m.lookup j = some q ↔ (m.insert k p').lookup j = some q) :=
    fun hj => by rw [lookup_insert_ne hj]
  -- An entry other than `k` whose parent was linked, or is `k`, is ready afterwards.
  have hreadyOf : ∀ {j q}, j ≠ k → m.lookup j = some q → q.nStatus.haveData = true →
      (∀ g r, q.pprev = some g → m.lookup g = some r → g ≠ k → r.nChainTx ≠ 0) →
      Ready (m.insert k p') j q := by
    intro j q hj hq hdata hparent
    refine ⟨(hlook hj).mp hq, hdata, fun g r hprev hr => ?_⟩
    by_cases hg : g = k
    · rw [hg, lookup_insert] at hr
      cases hr
      exact hlinked
    · exact hparent g r hprev ((hlook hg).mpr hr) hg
  have hk : k ∉ queue := (nodup_cons.mp h.todo_nodup).1
  refine { toTotals := htotals, placed := ?_, waits := ?_, todo_nodup := ?_,
           waiting_nodup := h.waiting_nodup.filter _, queued := ?_ }
  · intro j q hq hdata hzero
    have hj : j ≠ k := by
      rintro rfl
      rw [lookup_insert] at hq
      cases hq
      exact hlinked hzero
    rcases h.placed ((hlook hj).mpr hq) hdata hzero with hin | ⟨g, hprev, hw⟩
    · exact .inl (mem_append_left _ ((mem_cons.mp hin).resolve_left hj))
    · by_cases hg : g = k
      · subst hg
        exact .inl (mem_append_right _ (mem_waitingFor.mpr hw))
      · exact .inr ⟨g, hprev, mem_others.mpr ⟨hw, hg⟩⟩
  · intro g j hothers
    obtain ⟨hw, hg⟩ := mem_others.mp hothers
    refine (h.waits hw).insert_ne ?_ hg
    rintro rfl
    exact h.not_waits_of_queued mem_cons_self hw
  · refine Nodup.append (nodup_cons.mp h.todo_nodup).2 ?_ ?_
    · refine Nodup.map_on ?_ (h.waiting_nodup.filter _)
      intro e he e' he' heq
      rw [mem_filter, decide_eq_true_eq] at he he'
      exact Prod.ext (he.2.trans he'.2.symm) heq
    · intro j hj hj'
      exact h.not_waits_of_queued (mem_cons_of_mem _ hj) (mem_waitingFor.mp hj')
  · intro j hj
    rcases mem_append.mp hj with hj | hj
    · obtain ⟨q, hq, hzero⟩ := h.queued (mem_cons_of_mem _ hj)
      have hne : j ≠ k := fun heq => hk (heq ▸ hj)
      exact ⟨q, hreadyOf hne hq.entry hq.data fun g r hprev hr _ => hq.parent g r hprev hr, hzero⟩
    · obtain ⟨⟨q, hq, hprev, hdata, hzero⟩, -⟩ := h.waits (mem_waitingFor.mp hj)
      have hne : j ≠ k := (h.tree.parent_ne hq hprev).symm
      refine ⟨q, hreadyOf hne hq hdata fun g r hprev' _ hg => absurd ?_ hg, hzero⟩
      exact Option.some.inj (hprev'.symm.trans hprev)

end Linking

/-- When there is nothing to do an entry is linked exactly if its chain is complete. -/
theorem Waiting.linked_iff {waiting : List (Uint256 × Uint256)}
    (h : Waiting [] waiting m) (hp : m.lookup hash = some p) :
    p.nChainTx ≠ 0 ↔ p.Complete m := by
  refine ⟨fun hlink => ((h.entry hp).linked hlink).1, ?_⟩
  refine h.tree.induction ?_ ?_ hp
  · intro hash p hp hroot hcomplete hzero
    have hdata := ((h.tree.complete_iff hp).mp hcomplete).1
    rcases h.placed hp hdata hzero with hin | ⟨g, hprev, -⟩
    · cases hin
    · rw [hroot] at hprev
      cases hprev
  · intro hash p g q hp hprev hq ih hcomplete hzero
    obtain ⟨hdata, hparent⟩ := (h.tree.complete_iff hp).mp hcomplete
    rcases h.placed hp hdata hzero with hin | ⟨g', hprev', hw⟩
    · cases hin
    · obtain ⟨r, hr, hrzero⟩ := (h.waits hw).parent
      cases hprev.symm.trans hprev'
      cases hq.symm.trans hr
      exact ih (hparent g q hprev hq) hrzero

/-! ## The block index in memory -/

namespace ChainIndex

variable {I : ChainIndex} {block : CBlock}

/-- **The accounts of the index are in order**: the totals are right, and exactly the blocks
that have their data and miss that of an ancestor wait. -/
def Accounted (I : ChainIndex) : Prop := Waiting [] I.mapBlocksUnlinked I

/-- Exactly the blocks with data and without a complete chain wait. -/
theorem Accounted.mem_mapBlocksUnlinked_iff (h : I.Accounted) {g : Uint256} (hp : I.Has hash p) :
    (g, hash) ∈ I.mapBlocksUnlinked ↔
      p.pprev = some g ∧ p.nStatus.haveData = true ∧ ¬ p.Complete I := by
  have hiff := h.linked_iff hp
  constructor
  · intro hw
    obtain ⟨p₂, hp₂, hprev, hdata, hzero⟩ := (h.waits hw).entry
    cases hp.symm.trans hp₂
    exact ⟨hprev, hdata, fun hc => hiff.mpr hc hzero⟩
  · rintro ⟨hprev, hdata, hno⟩
    have hzero : p.nChainTx = 0 := not_not.mp fun hne => hno (hiff.mp hne)
    rcases h.placed hp hdata hzero with hin | ⟨g', hprev', hw⟩
    · cases hin
    · cases hprev.symm.trans hprev'
      exact hw

/-- What `linkBlock` makes of a ready entry. -/
theorem hasTotals_linked (h : Totals I) (hready : Ready I hash p) :
    HasTotals I p (p.linked I I.nBlockSequenceId) := by
  obtain ⟨hnum, hval⟩ := h.sums_of_ready hready
  refine ⟨⟨rfl, rfl, rfl, rfl, rfl, rfl, rfl⟩, hnum, ?_⟩
  rw [← hval]
  rfl

theorem linkBlock_mapBlockIndex (hp : I.Has hash p) :
    (linkBlock hash I).mapBlockIndex =
      I.mapBlockIndex.insert hash (p.linked I I.nBlockSequenceId) := by
  simp only [linkBlock, hp]
  split <;> rfl

/-- The loop of `ReceivedBlockTransactions` links all that can be linked. -/
theorem linkBlocks_accounted
    (h : Linking [hash] I.mapBlocksUnlinked I) : (linkBlocks hash I).Accounted := by
  have hend := drain_invariant linkBlock (fun queue waiting J => Linking queue waiting J)
    (fun k queue waiting J hJ => by
      obtain ⟨p, hready, -⟩ := hJ.queued mem_cons_self
      rw [linkBlock_mapBlockIndex hready.entry]
      exact hJ.turn hready (hasTotals_linked hJ.toTotals hready))
    (I.mapBlocksUnlinked.length + 1) [hash] I.mapBlocksUnlinked I (by simp [add_comm]) h
  exact hend.toWaiting

/-! ## The data of a block arrives -/

/-- With the block, no chain of the tree has `2 ^ 32` transactions. -/
def RoomFor (I : ChainIndex) (hash : Uint256) (block : CBlock) : Prop :=
  ∀ k q, I.mapBlockIndex.lookup k = some q →
    ((q.ancestors I.mapBlockIndex).map fun a =>
      if a.hashBlock = hash then block.vtx.length else a.nTx).sum < 2 ^ 32

/-- The parent has passed the test of `GetPrevIndex`, or is linked. -/
def ParentUsable (I : ChainIndex) (p : CBlockIndex) : Prop :=
  ∀ g q, p.pprev = some g → I.mapBlockIndex.lookup g = some q →
    q.isValid BlockStatus.BLOCK_VALID_TREE = true ∨ q.nChainTx ≠ 0

theorem toInt64_saplingValue (block : CBlock) :
    toInt64 (saplingValue block) = saplingValue block := by
  rw [saplingValue_eq, toInt64_toInt64]

theorem received_keepsPlace (block : CBlock) : KeepsPlace fun p p' => p' = p.received block := by
  rintro p _ rfl
  exact ⟨rfl, rfl, rfl⟩

@[simp] theorem received_haveData (block : CBlock) (p : CBlockIndex) :
    (p.received block).nStatus.haveData = true := by
  simp [received]

section

variable (h : I.Accounted) (hp : I.Has hash p)
variable (hdata : p.nStatus.haveData = false)

include h hp hdata

/-- The totals stay right when the data of a block arrives; its own entry is not linked
yet. -/
theorem Accounted.totals_received (hvtx : block.vtx ≠ []) (hroom : I.RoomFor hash block) :
    Totals (I.mapBlockIndex.insert hash (p.received block)) := by
  have hm := h.tree
  have hmap := hm.lookup_insert hp (received block)
  have hkeeps := (received_keepsPlace block).changeAt hash
  have hrel := BlockMap.related_of_map hmap
  have htree := hrel.isTree hkeeps hm
  -- The number of transactions of the block fits.
  have hlength : block.vtx.length < 2 ^ 32 := by
    have hsum := hroom hash p hp
    have hle := single_le_sum (l := (p.ancestors I).map fun a =>
      if a.hashBlock = hash then block.vtx.length else a.nTx) (fun _ _ => Nat.zero_le _)
      block.vtx.length
      (mem_map.mpr ⟨p, hm.self_mem_ancestors hp, if_pos (hm.key hp)⟩)
    omega
  have hpos : 0 < block.vtx.length := length_pos_of_ne_nil hvtx
  have hnTx : (p.received block).nTx = block.vtx.length := Nat.mod_eq_of_lt hlength
  have hself : (I.mapBlockIndex.insert hash (p.received block)).lookup hash =
      some (p.received block) := lookup_insert _
  have hsmall : ∀ {k q'}, (I.mapBlockIndex.insert hash (p.received block)).lookup k = some q' →
      q'.chainTxs (I.mapBlockIndex.insert hash (p.received block)) < 2 ^ 32 := by
    intro k q' hq'
    obtain ⟨q, hq, rfl⟩ := hrel.lookup_right hq'
    rw [chainTxs, hm.ancestors_map hkeeps hmap hq, map_map]
    refine lt_of_le_of_lt (sum_le_sum fun a ha => ?_) (hroom k q hq)
    rw [Function.comp_apply, changeAt]
    split
    · exact Nat.mod_le _ _
    · exact le_refl _
  refine ⟨htree, fun {k q'} hq' => ?_⟩
  by_cases hk : k = hash
  · subst hk
    cases hself.symm.trans hq'
    refine ⟨?_, toInt64_saplingValue block, hsmall hq', (absurd rfl), fun _ => rfl⟩
    simp only [received_haveData, true_iff]
    omega
  · have hq := hq'
    rw [lookup_insert_ne hk] at hq
    have hold := h.entry hq
    refine ⟨hold.counted, hold.amount, hsmall hq', fun hlink => ?_, hold.unlinked⟩
    obtain ⟨hcomplete, hnum, hval⟩ := hold.linked hlink
    -- A complete chain does not hold the block that had no data.
    have hsame : q'.ancestors (I.mapBlockIndex.insert hash (p.received block)) =
        q'.ancestors I := by
      refine hm.ancestors_congr htree hq fun a ha => ?_
      have hlook := hm.lookup_ancestor hq ha
      have hne : a.hashBlock ≠ hash := by
        intro heq
        rw [heq, hp] at hlook
        cases hlook
        rw [hcomplete _ ha] at hdata
        cases hdata
      rw [lookup_insert_ne hne, hlook]
    rw [Complete, chainTxs, chainSapling, hsame]
    exact ⟨hcomplete, hnum, hval⟩

/-- What waited for its parent before the data of a block arrived does so afterwards. -/
theorem Accounted.waits_received {g j : Uint256} (hw : (g, j) ∈ I.mapBlocksUnlinked) :
    j ≠ hash ∧ Waits (I.mapBlockIndex.insert hash (p.received block)) g j := by
  have hwaits := h.waits hw
  have hj : j ≠ hash := by
    rintro rfl
    obtain ⟨q, hq, -, hqdata, -⟩ := hwaits.entry
    cases hp.symm.trans hq
    rw [hdata] at hqdata
    cases hqdata
  refine ⟨hj, ?_⟩
  by_cases hg : g = hash
  · subst hg
    exact ⟨by rw [lookup_insert_ne hj]; exact hwaits.entry, p.received block, lookup_insert _, rfl⟩
  · exact hwaits.insert_ne hj hg

omit hp hdata in
/-- The other blocks that are not linked wait for their parents. -/
theorem Accounted.placed_received {j : Uint256} {q : CBlockIndex}
    (hj : j ≠ hash) (hq : (I.mapBlockIndex.insert hash (p.received block)).lookup j = some q)
    (hdata : q.nStatus.haveData = true) (hzero : q.nChainTx = 0) :
    ∃ g, q.pprev = some g ∧ (g, j) ∈ I.mapBlocksUnlinked := by
  rw [lookup_insert_ne hj] at hq
  exact (h.placed hq hdata hzero).resolve_left not_mem_nil

/-- **The data of a block whose parent is linked has arrived**: the block may be linked. -/
theorem Accounted.linking_received (hvtx : block.vtx ≠ []) (hroom : I.RoomFor hash block)
    (hlinked : ∀ g q, p.pprev = some g → I.Has g q → q.nChainTx ≠ 0) :
    Linking [hash] I.mapBlocksUnlinked (I.mapBlockIndex.insert hash (p.received block)) := by
  refine { toTotals := h.totals_received hp hdata hvtx hroom, placed := ?_, queued := ?_,
           waits := fun hw => (h.waits_received hp hdata hw).2,
           todo_nodup := nodup_singleton _, waiting_nodup := h.waiting_nodup }
  · intro j q hq hqdata hzero
    by_cases hj : j = hash
    · exact .inl (by rw [hj]; exact mem_singleton_self _)
    · exact .inr (h.placed_received hj hq hqdata hzero)
  · intro j hj
    rw [mem_singleton] at hj
    subst hj
    refine ⟨_, ⟨lookup_insert _, received_haveData block p, fun g r hprev hr => ?_⟩, rfl⟩
    have hg : g ≠ j := h.tree.parent_ne hp hprev
    rw [lookup_insert_ne hg] at hr
    exact hlinked g r hprev hr

omit h hdata in
theorem prev_received (hm : I.IsTree) :
    (p.received block).prev (I.mapBlockIndex.insert hash (p.received block)) =
      p.prev I := by
  cases hprev : p.pprev with
  | none => simp [CBlockIndex.prev, received, hprev]
  | some g =>
    have hg : g ≠ hash := hm.parent_ne hp hprev
    simp [CBlockIndex.prev, received, hprev, lookup_insert_ne hg]

/-- **`ReceivedBlockTransactions` keeps the accounts in order.** -/
theorem receivedBlockTransactions_accounted (hparent : I.ParentUsable p) (hvtx : block.vtx ≠ [])
    (hroom : I.RoomFor hash block) : (receivedBlockTransactions block hash I).Accounted := by
  have hm := h.tree
  have hself : (I.mapBlockIndex.insert hash (p.received block)).lookup hash =
      some (p.received block) := lookup_insert _
  unfold receivedBlockTransactions
  simp only [hp]
  rw [prev_received hp hm]
  cases hprev : p.pprev with
  | none =>
    have hnone : p.prev I = none := by simp [CBlockIndex.prev, hprev]
    simp only [hnone]
    exact linkBlocks_accounted (h.linking_received hp hdata hvtx hroom
      fun g q hg => by rw [hprev] at hg; cases hg)
  | some g =>
    obtain ⟨q, hq, -⟩ := hm.parent hp hprev
    have hsome : p.prev I = some q := by simp [CBlockIndex.prev, hprev, hq]
    simp only [hsome]
    by_cases hzero : q.nChainTx = 0
    · have hvalid := (hparent g q hprev hq).resolve_right (not_not.mpr hzero)
      rw [if_neg (not_not.mpr hzero), if_pos hvalid, hm.key hq]
      have hg : g ≠ hash := hm.parent_ne hp hprev
      refine { toTotals := h.totals_received hp hdata hvtx hroom, placed := ?_,
               waits := ?_, todo_nodup := nodup_nil, waiting_nodup := ?_ }
      · intro j r hr hrdata hrzero
        by_cases hj : j = hash
        · subst hj
          cases hself.symm.trans hr
          exact .inr ⟨g, hprev, mem_append_right _ (mem_singleton_self _)⟩
        · obtain ⟨g', hg', hw⟩ := h.placed_received hj hr hrdata hrzero
          exact .inr ⟨g', hg', mem_append_left _ hw⟩
      · intro g' j hw
        rcases mem_append.mp hw with hw | hw
        · exact (h.waits_received hp hdata hw).2
        · cases mem_singleton.mp hw
          exact ⟨⟨p.received block, hself, hprev, received_haveData block p, rfl⟩, q,
            by rw [lookup_insert_ne hg, hq], hzero⟩
      · refine Nodup.append h.waiting_nodup (nodup_singleton _) ?_
        intro e he he'
        rw [mem_singleton] at he'
        subst he'
        have hwait := @Accounted.waits_received p hash I block h hp hdata g hash he
        exact hwait.1 rfl
    · rw [if_pos hzero]
      refine linkBlocks_accounted (h.linking_received hp hdata hvtx hroom fun g' q' hg' hq' => ?_)
      cases hprev.symm.trans hg'
      cases hq.symm.trans hq'
      exact hzero

end

end ChainIndex

end Passion
