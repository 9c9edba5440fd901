import Passion.Mempool.Packages

/-!
# Joining re-added transactions to the rest of the pool

Transactions of a disconnected block come back to a pool that may hold their children. They come
in without a link to these, and `UpdateTransactionsFromBlock` makes up for it: from the last of
them to the first, each is linked to its children outside the block, and its statistics and
those of its descendants outside the block are updated.
-/

namespace Passion

open List Except Traversal Dag Finset Batch

variable {D : Type}

namespace TxMemPool

variable {E : PoolEnv D} {p q : TxMemPool D} {G : Dag Uint256}

/-! ## Links to the children -/

/-- The ids of what spends an output of a transaction. -/
def spenderIds (E : PoolEnv D) (p : TxMemPool D) (hash : Uint256) : Finset Uint256 :=
  (((p.mapNextTx.entries.filter fun e => e.1.hash = hash).map (·.2)).map
    (·.getHash E)).toFinset

/-- A transaction is linked to some children. -/
structure LinkedTo (hash : Uint256) (C : Finset Uint256) (p q : TxMemPool D) : Prop where
  base : OnlyPackages p q
  mapTx : q.mapTx = p.mapTx
  keys : ∀ x, x ∈ q.mapLinks ↔ x ∈ p.mapLinks
  children : ∀ x, q.childrenOf x = if x = hash then p.childrenOf hash ∪ C else p.childrenOf x
  parents : ∀ a x, a ∈ q.parentsOf x ↔ a ∈ p.parentsOf x ∨ (a = hash ∧ x ∈ C)

theorem LinkedTo.refl (p : TxMemPool D) (hash : Uint256) : LinkedTo hash ∅ p p where
  base := .refl p
  mapTx := rfl
  keys _ := Iff.rfl
  children x := by
    split
    · next hx => rw [hx, union_empty]
    · rfl
  parents a x := by simp

theorem LinkedTo.link {hash c : Uint256} {C : Finset Uint256} (h : LinkedTo hash C p q)
    (hhash : hash ∈ p.mapLinks) (hc : c ∈ p.mapLinks) :
    LinkedTo hash (insert c C) p ((q.updateChild hash c true).updateParent c hash true) where
  base := (h.base.trans (q.modifyLinks_frame hash _)).trans
    ((q.updateChild hash c true).modifyLinks_frame c _)
  mapTx := h.mapTx
  keys x := by
    rw [updateParent, mem_modifyLinks, updateChild, mem_modifyLinks, h.keys]
    constructor
    · rintro (rfl | rfl | hx)
      · exact hc
      · exact hhash
      · exact hx
    · exact fun hx => .inr (.inr hx)
  children x := by
    have hsame : ((q.updateChild hash c true).updateParent c hash true).childrenOf x =
        if x = hash then insert c (q.childrenOf hash) else q.childrenOf x := by
      rw [childrenOf, updateParent, linksOf_modifyLinks, updateChild, linksOf_modifyLinks,
        linksOf_modifyLinks]
      split_ifs <;> simp_all
    rw [hsame, h.children, h.children, if_pos rfl, union_insert]
    split <;> rfl
  parents a x := by
    have hsame : ((q.updateChild hash c true).updateParent c hash true).parentsOf x =
        if x = c then insert hash (q.parentsOf c) else q.parentsOf x := by
      rw [parentsOf, updateParent, linksOf_modifyLinks, updateChild, linksOf_modifyLinks,
        linksOf_modifyLinks]
      split_ifs <;> simp_all
    rw [hsame, mem_insert]
    split
    · next hx =>
      rw [hx, mem_insert, h.parents]
      tauto
    · next hx =>
      rw [h.parents]
      tauto

/-- The loop of `UpdateTransactionsFromBlock` over what spends an output. -/
theorem yields_foldlM_linkChild {hash : Uint256} {exclude : Finset Uint256}
    {l : List CTransaction} (hhash : hash ∈ p.mapLinks)
    (hmem : ∀ tx ∈ l, tx.getHash E ∈ p.mapTx ∧ tx.getHash E ∈ p.mapLinks) :
    (l.foldlM (linkChild E hash exclude) (∅, p)).Yields fun s =>
      LinkedTo hash ((l.map (·.getHash E)).toFinset \ exclude) p s.2 := by
  refine (Meets.foldlM (fun done s => s.1 = (done.map (·.getHash E)).toFinset ∧
    LinkedTo hash ((done.map (·.getHash E)).toFinset \ exclude) p s.2) ?_ ?_).mono
      fun _ hs => hs.2
  · exact ⟨rfl, by simpa using LinkedTo.refl p hash⟩
  rintro done tx ⟨met, q⟩ ⟨rest, rfl⟩ ⟨rfl, hlinked⟩
  obtain ⟨htx, hkey⟩ := hmem tx (by simp)
  have hset : ((done ++ [tx]).map (·.getHash E)).toFinset =
      insert (tx.getHash E) (done.map (·.getHash E)).toFinset := by
    rw [map_append, List.map_singleton, toFinset_done]
  rw [linkChild, if_neg (not_not.mpr (hlinked.mapTx ▸ htx))]
  rw [hset]
  split
  · next hnew =>
    refine ⟨rfl, ?_⟩
    rw [insert_sdiff_of_notMem _ hnew.2]
    exact hlinked.link hhash hkey
  · next hold =>
    refine ⟨rfl, ?_⟩
    -- it was met before, or it is of the block
    have hsame : insert (tx.getHash E) (done.map (·.getHash E)).toFinset \
        exclude = (done.map (·.getHash E)).toFinset \ exclude := by
      by_cases hex : tx.getHash E ∈ exclude
      · exact insert_sdiff_of_mem _ hex
      · rw [insert_eq_of_mem (by_contra fun hmet => hold ⟨hmet, hex⟩)]
    rw [hsame]
    exact hlinked

/-! ## Descendants outside the block -/

/-- Entries are summed up, remembered, and get one more ancestor. -/
structure Summed (updated : PoolEntry D) (S : Finset Uint256) (p : TxMemPool D)
    (s : DescendantSums × TxMemPool D) : Prop where
  sums : (s.1.modifySize, s.1.modifyFee, s.1.modifyCount, 0) = ∑ b ∈ S, p.weight .down b
  descendants : s.1.descendants = S
  mapLinks : s.2.mapLinks = p.mapLinks
  shift : Shifted p s.2 (Pi.single .up fun x => if x ∈ S then updated.weight .up else 0)

/-- The second loop of `UpdateForDescendants`. -/
theorem yields_foldlM_updateDescendant {updated : PoolEntry D} {exclude : Finset Uint256}
    {l : List Uint256} (hl : l.Nodup) (hmem : ∀ x ∈ l, x ∈ p.mapTx)
    (hok : ∀ x ∈ l, Figures.Ok .up (p.stat .up x)) :
    (l.foldlM (updateDescendant updated exclude) (⟨0, 0, 0, ∅⟩, p)).Yields
      (Summed updated (l.toFinset \ exclude) p) := by
  refine Meets.foldlM (fun done s => Summed updated (done.toFinset \ exclude) p s)
    ⟨by simp, by simp, rfl, by simpa [← Pi.zero_def] using Shifted.refl p⟩ ?_
  rintro done c ⟨sums, q⟩ ⟨rest, rfl⟩ hs
  have hshift : Shifted p q _ := hs.shift
  have hc : c ∈ p.mapTx := hmem c (by simp)
  have hnew : c ∉ done.toFinset := notMem_done hl
  rw [updateDescendant, toFinset_done]
  split
  · next hex =>
    rw [insert_sdiff_of_mem _ hex]
    exact hs
  · next hex =>
    have hnew' : c ∉ done.toFinset \ exclude := fun h => hnew (mem_sdiff.mp h).1
    have hcq := (hshift.base.mem_iff c).mpr hc
    obtain ⟨e, he⟩ := exists_lookup hcq
    obtain ⟨q', hq', hlinks', hshift'⟩ := exists_modifyAll_update (p := q)
      (fun x hx => mem_singleton.mp hx ▸ hcq) (updated.weight .up) fun x hx => by
        obtain rfl := Finset.mem_singleton.mp hx
        rw [hshift.stat .up x hc, Pi.single_eq_same, if_neg hnew', add_zero]
        exact (hok x (by simp)).add updated.ok_weight
    rw [modifyAll_singleton] at hq'
    have hstep : q.modify c (fun d => d.updateAncestorState updated.nTxSize updated.modifiedFee 1
        updated.sigOpCount) = .ok q' := hq'
    have htotal := hshift.trans hshift'
    rw [← Pi.single_add] at htotal
    rw [entry_eq he, hstep, insert_sdiff_of_notMem _ hex]
    refine ⟨?_, congrArg (insert c) hs.descendants, hlinks'.trans hs.mapLinks,
      htotal.single_congr fun x _ => ?_⟩
    · rw [sum_insert hnew', ← hs.sums, ← hshift.base.weight_eq .down c, weight_eq he]
      refine Eq.trans ?_ (add_comm _ _)
      simp [PoolEntry.weight]
    · by_cases hxc : x = c
      · subst hxc
        simp [mem_toFinset.not.mp hnew]
      · simp [hxc]

section Joining

variable {B : G.Batch} {Q exclude : Finset Uint256} {b : Uint256} {cache : CacheMap}

/-- The cache holds, for nodes of the batch that are joined, what is below them outside it. -/
def Remembers (B : G.Batch) (Q : Finset Uint256) (cache : CacheMap) : Prop :=
  ∀ c S, cache.lookup c = some S → c ∈ B.batch ∧ c ∈ Q ∧ S = B.outer c

/-- The first loop of `UpdateForDescendants`. -/
theorem Shows.exists_descendantsOutside (h : q.Shows (B.join Q)) (hb : b ∈ B.batch) (hbQ : b ∈ Q)
    (hQ : ∀ c ∈ B.batch, c ∈ Q → G.children c ⊆ Q) (hcache : Remembers B Q cache) :
    ∃ t, drain (q.visitDescendant cache) (.error "UpdateForDescendants does not return")
      q.mapTx.keys.length (q.childrenOf b) ∅ = .ok t ∧ t ⊆ G.nodes ∧ t \ B.batch = B.outer b := by
  have hnext : ∀ k ∈ (B.join Q).nodes, q.getMemPoolChildren k = .ok ((B.join Q).children k) :=
    fun k hk => by rw [getMemPoolChildren_eq ((h.keys k).mpr hk), h.children]
  have hknown : ∀ c S, cache.lookup c = some S → Known (B.join Q).children B.batch c S := by
    intro c S hc
    obtain ⟨hcB, hcQ, rfl⟩ := hcache c S hc
    exact known_outer hQ hcB hcQ
  have hcard : ((B.join Q).nodes \ (∅ \ q.childrenOf b)).card ≤ q.mapTx.keys.length := by
    rw [← card_ids, ids_eq h.nodes, empty_sdiff, sdiff_empty]
  rw [h.children] at hcard ⊢
  obtain ⟨t, ht, -, hsound, hcomplete⟩ := exists_drain_visitKnown hnext
    (fun k _ c hc => ((B.join Q).mem hc).2) hknown (fun c hc => ((B.join Q).mem hc).2) (by simp)
    hcard
  replace hsound := fun y hy => (hsound y hy).resolve_left (notMem_empty y)
  refine ⟨t, ht, fun y hy => ?_, sdiff_eq_outer hQ hb hbQ hsound hcomplete⟩
  obtain ⟨k, hk, hky⟩ := hsound y hy
  exact (B.join Q).mem_of_reaches hky ((B.join Q).mem hk).2

/-- **`UpdateForDescendants`** of a node that has been linked to its children. -/
theorem Shows.yields_updateForDescendants (h : q.Shows (B.join Q)) (hb : b ∈ B.batch) (hbQ : b ∈ Q)
    (hQ : ∀ c ∈ B.batch, c ∈ Q → G.children c ⊆ Q) (hcache : Remembers B Q cache)
    (hexclude : ∀ x ∈ G.nodes, x ∈ exclude ↔ x ∈ B.batch)
    (hok : ∀ side, ∀ x ∈ G.nodes, Figures.Ok side (q.stat side x)) :
    (q.updateForDescendants b cache exclude).Yields fun s => s.1.mapLinks = q.mapLinks ∧
      Shifted q s.1 (Pi.single .up (fun x => if x ∈ B.outer b then q.weight .up b else 0) +
        Pi.single .down fun x => if x = b then ∑ y ∈ B.outer b, q.weight .down y else 0) ∧
      s.2 = if B.outer b = ∅ then cache
        else cache.insert b ((cache.lookup b).getD ∅ ∪ B.outer b) := by
  have hbG : b ∈ G.nodes := B.subset hb
  obtain ⟨t, ht, htG, houter⟩ := h.exists_descendantsOutside hb hbQ hQ hcache
  have htout : t \ exclude = B.outer b := by
    rw [← houter]
    ext y
    rw [mem_sdiff, mem_sdiff]
    exact and_congr_right fun hy => not_congr (hexclude y (htG hy))
  obtain ⟨e, he⟩ := exists_lookup ((h.nodes b).mpr hbG)
  rw [updateForDescendants, getMemPoolChildren_eq ((h.keys b).mpr hbG), ok_bind, ht, entry_eq he]
  have hloop : ((inOrder t).foldlM (updateDescendant e exclude) (⟨0, 0, 0, ∅⟩, q)).Yields
      (Summed e ((inOrder t).toFinset \ exclude) q) :=
    yields_foldlM_updateDescendant (nodup_inOrder t)
      (fun x hx => (h.nodes x).mpr (htG (mem_inOrder.mp hx)))
      fun x hx => hok .up x (htG (mem_inOrder.mp hx))
  rw [toFinset_inOrder, htout] at hloop
  refine hloop.bind fun s hs => ?_
  have hbs : b ∈ s.2.mapTx := (hs.shift.base.mem_iff b).mpr ((h.nodes b).mpr hbG)
  have hokb : Figures.Ok .down (s.2.stat .down b + ∑ y ∈ B.outer b, q.weight .down y) := by
    have hsame : s.2.stat .down b = q.stat .down b := by
      simp [hs.shift.stat .down b ((h.nodes b).mpr hbG)]
    rw [hsame]
    rcases (B.outer b).eq_empty_or_nonempty with hempty | hne
    · rw [hempty, sum_empty, add_zero]
      exact hok .down b hbG
    · refine (hok .down b hbG).add (ok_sum hne fun y hy => ?_)
      exact (h.nodes y).mpr (htG (mem_sdiff.mp (htout ▸ hy)).1)
  obtain ⟨q', hq', hlinks, hshift⟩ := exists_modifyAll_update (s := {b})
    (fun x hx => Finset.mem_singleton.mp hx ▸ hbs) (∑ y ∈ B.outer b, q.weight .down y)
    fun x hx => by rwa [Finset.mem_singleton.mp hx]
  rw [modifyAll_singleton, ← hs.sums] at hq'
  have hstep : s.2.modify b (fun e => e.updateDescendantState s.1.modifySize s.1.modifyFee
      s.1.modifyCount) = .ok q' := hq'
  rw [hstep]
  refine ⟨hlinks.trans hs.mapLinks, (hs.shift.trans hshift).congr fun side x _ => ?_, ?_⟩
  · cases side <;> simp [weight_eq he]
  · rw [hs.descendants]

/-- The pool on the way: the nodes of `Q` are joined to the rest, and the statistics differ from
those at first by what is counted for them. -/
structure Joining (B : G.Batch) (Q : Finset Uint256) (p : TxMemPool D)
    (s : TxMemPool D × CacheMap) : Prop where
  shows : s.1.Shows (B.join Q)
  shift : Shifted p s.1 fun side x =>
    ∑ a ∈ B.spanAt Q side x, p.weight side a - ∑ a ∈ G.span side x, p.weight side a
  cache : Remembers B Q s.2
  ok : ∀ side, ∀ x ∈ G.nodes, Figures.Ok side (s.1.stat side x)

theorem Shows.join_empty (h : p.Shows G) (B : G.Batch) : p.Shows (B.join ∅) where
  nodes := h.nodes
  keys := h.keys
  children a := by
    rw [h.children]
    exact (if_neg fun ha => notMem_empty a ha.2).symm
  parents a b := by
    rw [h.parents]
    change _ ↔ b ∈ B.joinedChildren ∅ a
    simp [mem_joinedChildren]

theorem Shows.joining (h : p.Shows G) (hc : Counted G p) (B : G.Batch) : Joining B ∅ p (p, ∅) where
  shows := h.join_empty B
  shift := (Shifted.refl p).congr fun side x _ => by simp [B.spanAt_empty]
  cache c S hS := by simp at hS
  ok _ _ hx := hc.ok h.nodes hx

/-- A node of the batch is linked to its children outside. -/
theorem LinkedTo.shows (hlinked : LinkedTo b (B.outside b) p q) (h : p.Shows (B.join Q))
    (hb : b ∈ B.batch) : q.Shows (B.join (insert b Q)) where
  nodes it := by rw [hlinked.mapTx, h.nodes]; rfl
  keys it := by rw [hlinked.keys, h.keys]; rfl
  children a := by
    ext c
    rw [hlinked.children, h.children, h.children]
    change _ ↔ c ∈ B.joinedChildren (insert b Q) a
    rw [mem_joinedChildren, mem_insert]
    split
    · next hab =>
      subst hab
      rw [mem_union]
      change c ∈ B.joinedChildren Q a ∨ _ ↔ _
      rw [mem_joinedChildren]
      tauto
    · next hab =>
      change c ∈ B.joinedChildren Q a ↔ _
      rw [mem_joinedChildren]
      tauto
  parents a c := by
    rw [hlinked.parents, h.parents]
    change c ∈ B.joinedChildren Q a ∨ _ ↔ c ∈ B.joinedChildren (insert b Q) a
    rw [mem_joinedChildren, mem_joinedChildren, mem_insert]
    constructor
    · rintro ((hc | hc) | ⟨rfl, hc⟩)
      · exact .inl hc
      · exact .inr ⟨hc.1, .inr hc.2.1, hc.2.2⟩
      · exact .inr ⟨hb, .inl rfl, hc⟩
    · rintro (hc | ⟨ha, rfl | haQ, hc⟩)
      · exact .inl (.inl hc)
      · exact .inr ⟨rfl, hc⟩
      · exact .inl (.inr ⟨ha, haQ, hc⟩)

variable {s : TxMemPool D × CacheMap}

/-- **One turn of `UpdateTransactionsFromBlock`**, for a transaction in the pool whose
descendants in the block have had theirs. -/
theorem Joining.yields_updateFromBlock (h : Joining B Q p s) (hb : b ∈ B.batch) (hbQ : b ∉ Q)
    (hQ : ∀ c ∈ B.batch, c ∈ insert b Q → G.children c ⊆ insert b Q)
    (hexclude : ∀ x ∈ G.nodes, x ∈ exclude ↔ x ∈ B.batch)
    (houtside : B.outside b = p.spenderIds E b \ exclude)
    (hspenders : ∀ c ∈ p.spenderIds E b, c ∈ G.nodes) :
    (updateFromBlock E exclude s b).Yields (Joining B (insert b Q) p) := by
  obtain ⟨q, cache⟩ := s
  have hbG : b ∈ G.nodes := B.subset hb
  have hnext : q.mapNextTx = p.mapNextTx := h.shift.base.mapNextTx
  rw [updateFromBlock, if_neg (not_not.mpr ((h.shows.nodes b).mpr hbG))]
  refine (yields_foldlM_linkChild ((h.shows.keys b).mpr hbG) fun tx htx => ?_).bind
    fun linked hlinked => ?_
  · have hmem : tx.getHash E ∈ G.nodes := hspenders _ (by
      rw [spenderIds, ← hnext, mem_toFinset]
      exact mem_map_of_mem htx)
    exact ⟨(h.shows.nodes _).mpr hmem, (h.shows.keys _).mpr hmem⟩
  have hids : (((q.mapNextTx.entries.filter fun e => e.1.hash = b).map (·.2)).map
      (·.getHash E)).toFinset \ exclude = B.outside b := by
    rw [houtside, spenderIds, hnext]
  rw [hids] at hlinked
  have hshows := hlinked.shows h.shows hb
  have hkeep := Shifted.of_mapTx hlinked.base hlinked.mapTx
  have hin : ∀ x ∈ G.nodes, x ∈ q.mapTx := fun x hx => (h.shows.nodes x).mpr hx
  have hok : ∀ side, ∀ x ∈ G.nodes, Figures.Ok side (linked.2.stat side x) := fun side x hx => by
    simpa [hkeep.stat side x (hin x hx)] using h.ok side x hx
  have hcache : Remembers B (insert b Q) cache := fun c S hc =>
    ⟨(h.cache c S hc).1, mem_insert_of_mem (h.cache c S hc).2.1, (h.cache c S hc).2.2⟩
  refine (hshows.yields_updateForDescendants hb (mem_insert_self b Q) hQ hcache hexclude
    hok).mono ?_
  rintro ⟨r, cache'⟩ ⟨hlinks, hshift, hcache'⟩
  have hbase := h.shift.base.trans hlinked.base
  rw [hbase.weight_eq .up b, sum_congr rfl fun y _ => hbase.weight_eq .down y] at hshift
  have htotal := hkeep.trans hshift
  have houterG : ∀ y ∈ B.outer b, y ∈ p.mapTx := fun y hy =>
    (h.shift.base.mem_iff y).mp (hin y (mem_below.mp (mem_filter.mp hy).1).1)
  refine ⟨hshows.onlyStatistics hshift.base hlinks, (h.shift.trans htotal).congr fun side x _ => ?_,
    ?_, fun side x hx => ?_⟩
  · cases side with
    | up =>
      rw [spanAt, aboveAt_insert hb]
      split
      · next hx =>
        rw [sum_insert (notMem_aboveAt hb hbQ hx), add_sub_assoc, add_comm]
        simp [hx, spanAt]
      · next hx => simp [hx, spanAt]
    | down =>
      by_cases hxb : x = b
      · subst hxb
        rw [spanAt, belowAt_insert_self hb hbQ,
          sum_union (disjoint_belowAt_outer hb hbQ), add_sub_right_comm]
        simp [spanAt]
      · simp [spanAt, belowAt_insert_of_ne hxb, hxb]
  · intro c S hc
    rw [hcache'] at hc
    split at hc
    · exact hcache c S hc
    · by_cases hcb : c = b
      · subst hcb
        have hnone : cache.lookup c = none := by
          cases hlook : cache.lookup c with
          | none => rfl
          | some S' => exact absurd (h.cache c S' hlook).2.1 hbQ
        rw [AList.lookup_insert, hnone, Option.getD_none, empty_union] at hc
        exact ⟨hb, mem_insert_self c Q, (Option.some.inj hc).symm⟩
      · rw [AList.lookup_insert_ne hcb] at hc
        exact hcache c S hc
  · have hx' := h.ok side x hx
    rw [htotal.stat side x (hin x hx)]
    cases side with
    | up =>
      by_cases hxb : x ∈ B.outer b
      · simpa [hxb] using hx'.add (ok_weight ((h.shift.base.mem_iff b).mp (hin b hbG)))
      · simpa [hxb] using hx'
    | down =>
      by_cases hxb : x = b
      · rcases (B.outer b).eq_empty_or_nonempty with hempty | hne
        · simpa [hempty] using hx'
        · simpa [hxb] using (hxb ▸ hx').add (ok_sum hne houterG)
      · simpa [hxb] using hx'

/-- What has had its turn has its children with it, where children come after their parents. -/
theorem children_subset_done {l done rest : List Uint256}
    (hlast : ∀ pre b post, l = pre ++ b :: post → ∀ c ∈ G.children b, c ∈ post)
    (hsplit : l.reverse = done ++ rest) {b : Uint256} (hb : b ∈ done) {c : Uint256}
    (hc : c ∈ G.children b) : c ∈ done := by
  obtain ⟨before, after, rfl⟩ := append_of_mem hb
  have hl : l = (after ++ rest).reverse ++ b :: before.reverse := by
    rw [← reverse_reverse l, hsplit]
    simp
  have hmem := hlast _ b _ hl c hc
  exact mem_append_left _ (mem_reverse.mp hmem)

/-- **`UpdateTransactionsFromBlock`** joins the re-added transactions to the rest: it returns, and
the statistics are sums over the joined graph where they were sums over the graph before. -/
theorem Shows.yields_updateTransactionsFromBlock (h : p.Shows G) (hc : Counted G p)
    {l : List Uint256} (hl : l.Nodup)
    (hclosed : ∀ {a b}, b ∈ G.children a → (a ∈ l.toFinset ↔ b ∈ l.toFinset))
    (hspenders : ∀ {a b}, b ∈ p.spenderIds E a → b ∈ G.nodes)
    (hlast : ∀ pre b post, l = pre ++ b :: post → ∀ c ∈ G.children b, c ∈ post) :
    (p.updateTransactionsFromBlock E l).Yields fun q =>
      ∃ cache, Joining (.ofSet l.toFinset (p.spenderIds E) hclosed hspenders)
        (G.nodes ∩ l.toFinset) p (q, cache) := by
  refine Meets.map ?_ fun s hs => ⟨s.2, hs⟩
  have hloop := Meets.foldlM (A := fun _ => False) (l := l.reverse)
    (f := updateFromBlock E l.toFinset) (fun done s =>
      Joining (.ofSet l.toFinset (p.spenderIds E) hclosed hspenders) (G.nodes ∩ done.toFinset) p s)
    (by simpa using h.joining hc _) ?_
  · rwa [toFinset_reverse] at hloop
  rintro done b s ⟨rest, hsplit⟩ hs
  rw [toFinset_done]
  by_cases hb : b ∈ G.nodes
  · have hbl : b ∈ l.toFinset := by
      rw [← toFinset_reverse, hsplit]
      simp
    have hnew : b ∉ done.toFinset := by
      have hnodup := nodup_reverse.mpr hl
      rw [hsplit] at hnodup
      exact notMem_done hnodup
    rw [inter_insert_of_mem hb]
    refine hs.yields_updateFromBlock (mem_inter.mpr ⟨hb, hbl⟩)
      (fun hmem => hnew (mem_inter.mp hmem).2) (fun c _ hcQ d hd => ?_) (fun x hx => ?_) rfl
      fun c hc => hspenders hc
    · rw [← inter_insert_of_mem hb, ← toFinset_done] at hcQ ⊢
      refine mem_inter.mpr ⟨(G.mem hd).2, mem_toFinset.mpr ?_⟩
      have hsplit' : l.reverse = (done ++ [b]) ++ rest := by simpa using hsplit
      exact children_subset_done hlast hsplit' (mem_toFinset.mp (mem_inter.mp hcQ).2) hd
    · exact ⟨fun hxl => mem_inter.mpr ⟨hx, hxl⟩, fun hxB => (mem_inter.mp hxB).2⟩
  · have hskip : updateFromBlock E l.toFinset s b = .ok s :=
      if_pos fun hbs => hb ((hs.shows.nodes b).mp hbs)
    rw [inter_insert_of_notMem hb, hskip]
    exact hs

/-- What was exact for the graph before is exact for the joined graph. -/
theorem Joining.exact {M : Type} [AddCommGroup M] {side : Side} (hs : Joining B B.batch p s)
    (hnodes : ∀ it, it ∈ p.mapTx ↔ it ∈ G.nodes) {π : Figures →+ M} (h : Exact side π G p) :
    Exact side π B.joined s.1 := by
  intro x hx
  rw [hs.shift.stat side x ((hnodes x).mpr hx), B.spanAt_batch, map_add, map_sub, h x hx, map_sum,
    map_sum, add_sub_cancel]
  exact sum_congr rfl fun a _ => by rw [hs.shift.base.weight_eq]

end Joining

end TxMemPool

end Passion
