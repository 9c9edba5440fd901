import Passion.Coins.Refinement

/-!
# Flushing a cache

`BatchWrite` takes over the dirty entries of a cache into the view below. Over a sound view the
flush of a sound cache does not throw, and the view below then reads as the cache did. (The best
block and the best anchor of the child replace those below even where the child has none; and an
anchor that is entered on both sides keeps the tree below.)
-/

namespace Passion

open CacheData Layered AList

/-! ## The entries of a cache -/

/-- What `BatchWrite` leaves for a coin, from the dirty entry that is written and what is
there. -/
def mergeCoin (e : CCoinsCacheEntry) : Option CCoinsCacheEntry → Option CCoinsCacheEntry
  | none => if e.fresh && e.coin.isSpent then none else some ⟨e.coin, true, e.fresh⟩
  | some us => if us.fresh && e.coin.isSpent then none else some ⟨e.coin, true, us.fresh⟩

/-- A fresh entry is written over no unspent coin. -/
def FreshFits (e : CCoinsCacheEntry) (us : Option CCoinsCacheEntry) : Prop :=
  e.fresh = true → ∀ u ∈ us, u.coin.isSpent = true

namespace CCoinsView

variable {m : CCoinsMap} {o : COutPoint} {e : CCoinsCacheEntry}

theorem batchWriteCoin_eq_ok (h : FreshFits e (m.lookup o)) :
    ∃ m', batchWriteCoin m o e = .ok m' ∧ ∀ o', m'.lookup o' = if o' = o then
      if !e.dirty then m.lookup o else mergeCoin e (m.lookup o) else m.lookup o' := by
  have look : ∀ {m' : CCoinsMap} {x}, m'.lookup o = x → (∀ o', o' ≠ o → m'.lookup o' = m.lookup o') →
      ∀ o', m'.lookup o' = if o' = o then x else m.lookup o' := by
    intro m' x hself hne o'
    split
    · next ho => rw [ho, hself]
    · next ho => exact hne o' ho
  unfold batchWriteCoin
  cases e.dirty with
  | false => exact ⟨m, rfl, look rfl fun _ _ => rfl⟩
  | true =>
    cases hl : m.lookup o with
    | none =>
      by_cases hc : (e.fresh && e.coin.isSpent) = true
      · exact ⟨m, if_pos hc, look (by simp [hl, mergeCoin, hc]) fun _ _ => rfl⟩
      · exact ⟨_, if_neg hc, look (by simp [mergeCoin, hc]) fun _ ho => lookup_insert_ne ho⟩
    | some us =>
      have hfits : ¬ (e.fresh && !us.coin.isSpent) = true := by
        cases hf : e.fresh with
        | false => simp
        | true => simp [h hf us (by simp [hl])]
      by_cases hc : (us.fresh && e.coin.isSpent) = true
      · exact ⟨_, (if_neg hfits).trans (if_pos hc), look (by simp [mergeCoin, hc])
          fun _ ho => lookup_erase_ne ho⟩
      · exact ⟨_, (if_neg hfits).trans (if_neg hc), look (by simp [mergeCoin, hc])
          fun _ ho => lookup_insert_ne ho⟩

/-- **The loop of `BatchWrite` over the coins** succeeds where every fresh entry fits, and
merges key by key. -/
theorem batchWriteCoins_eq_ok {es : List (Σ _ : COutPoint, CCoinsCacheEntry)}
    (hnd : es.NodupKeys) (h : ∀ o e, es.dlookup o = some e → FreshFits e (m.lookup o)) :
    ∃ m', batchWriteCoins m es = .ok m' ∧ ∀ o, m'.lookup o = (es.dlookup o).elim (m.lookup o)
      fun e => if !e.dirty then m.lookup o else mergeCoin e (m.lookup o) := by
  have hloop : ∀ m es, batchWriteCoins m es = es.foldlM (fun m e => batchWriteCoin m e.1 e.2) m := by
    intro m es
    induction es generalizing m with
    | nil => rfl
    | cons e es ih => exact congrArg _ (funext ih)
  rw [hloop]
  exact look_foldlM (fun m o => m.lookup o)
    (g := fun _ e w => if !e.dirty then w else mergeCoin e w)
    (fun m o e hfits => batchWriteCoin_eq_ok hfits) hnd m h

end CCoinsView

/-! ## Into a cache -/

namespace CacheData

variable {c p p' : CacheData} {b : ChainState}

/-- Over a sound cache every fresh entry of a sound child fits. -/
theorem freshFits_of_sound (hc : c.Sound (p.state b)) {o : COutPoint} {e : CCoinsCacheEntry}
    (he : c.cacheCoins.lookup o = some e) : FreshFits e (p.cacheCoins.lookup o) := by
  rintro hf u hu
  have hnone := hc.coins_of_fresh he hf
  rw [coins_of_lookup hu] at hnone
  by_contra hs
  rw [CCoinsCacheEntry.unspent_of_not_isSpent (by simpa using hs)] at hnone
  cases hnone

theorem mergesTo_mergeCoin (e : CCoinsCacheEntry) (us : Option CCoinsCacheEntry) :
    MergesTo Eq (layerEntry e) (us.map layerEntry) ((mergeCoin e us).map layerEntry) := by
  unfold mergeCoin
  cases us with
  | none =>
    dsimp only
    split
    · next hs =>
      obtain ⟨hf, hspent⟩ := Bool.and_eq_true_iff.mp hs
      exact .dropped none (CCoinsCacheEntry.unspent_of_isSpent hspent) (fun _ => hf)
        fun u hu => by cases hu
    · exact .created _ rfl rfl id
  | some us =>
    dsimp only
    split
    · next hs =>
      obtain ⟨hf, hspent⟩ := Bool.and_eq_true_iff.mp hs
      refine .dropped _ (CCoinsCacheEntry.unspent_of_isSpent hspent) (fun hu => by cases hu) ?_
      rintro u ⟨⟩
      exact hf
    · exact .changed _ _ rfl id fun hclean => by cases hclean

/-- A merged entry that is spent holds a cleared coin, if the written one did. -/
theorem mergeCoin_cleared {e d : CCoinsCacheEntry} {us : Option CCoinsCacheEntry}
    (he : e.coin.isSpent = true → e.coin = .empty) (hd : mergeCoin e us = some d) :
    d.coin.isSpent = true → d.coin = .empty := by
  unfold mergeCoin at hd
  split at hd <;> split at hd <;> cases hd <;> exact he

/-- **`BatchWriteAnchors` and `BatchWriteNullifiers`**: what is there stays if it is entered
like the entry that is written, else it is changed. -/
def mergeEntered {β : Type*} (new : β) (keep : β → Prop) [DecidablePred keep] (change : β → β) :
    Option β → β
  | none => new
  | some us => if keep us then us else change us

/-- One step of `BatchWriteAnchors` and `BatchWriteNullifiers`: the entry of one key. -/
theorem lookup_mergeEntered {α β : Type*} [DecidableEq α] (m : AList fun _ : α => β) (k : α)
    (dirty : Bool) (new : β) (keep : β → Prop) [DecidablePred keep] (change : β → β) (k' : α) :
    (if !dirty then m
      else match m.lookup k with
        | none => m.insert k new
        | some us => if keep us then m else m.insert k (change us)).lookup k' =
      if k' = k then
        if !dirty then m.lookup k else some (mergeEntered new keep change (m.lookup k))
      else m.lookup k' := by
  by_cases hk : k' = k
  · subst hk
    cases dirty with
    | false => simp
    | true =>
      cases hl : m.lookup k' with
      | none => simp [mergeEntered]
      | some us => by_cases hkeep : keep us <;> simp [mergeEntered, hkeep, hl]
  · rw [if_neg hk]
    cases dirty with
    | false => simp
    | true =>
      cases m.lookup k with
      | none => simp [hk]
      | some us => by_cases hkeep : keep us <;> simp [hkeep, hk]

/-- **A merge of entered entries** hands values over up to `R`, if what is kept and what is
changed has the value of the entry that is written. -/
theorem mergesTo_mergeEntered {β V : Type*} [Inhabited V] {R : V → V → Prop} {f : β → Entry V}
    {e new : β} {keep : β → Prop} [DecidablePred keep] {change : β → β}
    (hfresh : ∀ d, (f d).fresh = false) (hnew : R (f new).val (f e).val ∧ (f new).dirty = true)
    (hkeep : ∀ us, keep us → R (f us).val (f e).val)
    (hchange : ∀ us, R (f (change us)).val (f e).val ∧ (f (change us)).dirty = true)
    (us : Option β) :
    MergesTo R (f e) (us.map f) (Option.map f (some (mergeEntered new keep change us))) := by
  have hno : ∀ d {P : Prop}, (f d).fresh = true → P := fun d _ hd => by
    rw [hfresh] at hd
    cases hd
  cases us with
  | none => exact .created _ hnew.1 hnew.2 (hno new)
  | some us =>
    by_cases h : keep us
    · rw [mergeEntered, if_pos h]
      exact .changed _ _ (hkeep us h) id fun _ => rfl
    · rw [mergeEntered, if_neg h]
      refine .changed _ _ (hchange us).1 (hno _) fun hclean => ?_
      rw [(hchange us).2] at hclean
      cases hclean

/-- What `BatchWriteNullifiers` leaves for a nullifier. -/
def mergeNullifier (e : CNullifiersCacheEntry) :
    Option CNullifiersCacheEntry → CNullifiersCacheEntry :=
  mergeEntered ⟨e.entered, true⟩ (·.entered = e.entered) fun _ => ⟨e.entered, true⟩

/-- What `BatchWriteAnchors` leaves for an anchor. -/
def mergeAnchor (e : CAnchorsSaplingCacheEntry) :
    Option CAnchorsSaplingCacheEntry → CAnchorsSaplingCacheEntry :=
  mergeEntered ⟨e.entered, e.tree, true⟩ (·.entered = e.entered)
    fun us => ⟨e.entered, us.tree, true⟩

theorem lookup_batchWriteNullifier (m : CNullifiersMap) (nf : Uint256) (e : CNullifiersCacheEntry)
    (nf' : Uint256) : (CCoinsView.batchWriteNullifier m nf e).lookup nf' = if nf' = nf then
      if !e.dirty then m.lookup nf else some (mergeNullifier e (m.lookup nf))
      else m.lookup nf' := by
  have h := lookup_mergeEntered m nf e.dirty ⟨e.entered, true⟩ (·.entered = e.entered)
    (fun _ => ⟨e.entered, true⟩) nf'
  unfold CCoinsView.batchWriteNullifier mergeNullifier
  cases hl : m.lookup nf <;> simpa only [hl] using h

theorem lookup_batchWriteAnchor (m : CAnchorsSaplingMap) (rt : Uint256)
    (e : CAnchorsSaplingCacheEntry) (rt' : Uint256) :
    (CCoinsView.batchWriteAnchor m rt e).lookup rt' = if rt' = rt then
      if !e.dirty then m.lookup rt else some (mergeAnchor e (m.lookup rt)) else m.lookup rt' := by
  have h := lookup_mergeEntered m rt e.dirty ⟨e.entered, e.tree, true⟩ (·.entered = e.entered)
    (fun us => ⟨e.entered, us.tree, true⟩) rt'
  unfold CCoinsView.batchWriteAnchor mergeAnchor
  cases hl : m.lookup rt <;> simpa only [hl] using h

theorem merged_nullifiers (hlook : ∀ nf, p'.cacheSaplingNullifiers.lookup nf =
      (c.cacheSaplingNullifiers.lookup nf).elim (p.cacheSaplingNullifiers.lookup nf) fun e =>
        if !e.dirty then p.cacheSaplingNullifiers.lookup nf
        else some (mergeNullifier e (p.cacheSaplingNullifiers.lookup nf))) :
    Merged Eq c.nullifierLayer p.nullifierLayer p'.nullifierLayer := by
  refine .of_lookup (fun e us => some (mergeNullifier e us)) hlook fun e us => ?_
  refine mergesTo_mergeEntered (f := fun e : CNullifiersCacheEntry => ⟨e.entered, e.dirty, false⟩)
    (fun _ => rfl) ?_ (fun _ h => h) (fun _ => ?_) us <;> exact ⟨rfl, rfl⟩

theorem merged_anchors (hlook : ∀ rt, p'.cacheSaplingAnchors.lookup rt =
      (c.cacheSaplingAnchors.lookup rt).elim (p.cacheSaplingAnchors.lookup rt) fun e =>
        if !e.dirty then p.cacheSaplingAnchors.lookup rt
        else some (mergeAnchor e (p.cacheSaplingAnchors.lookup rt))) :
    Merged (fun x y => x.isSome = y.isSome) c.anchorLayer p.anchorLayer p'.anchorLayer := by
  have hval : ∀ d e : CAnchorsSaplingCacheEntry, d.entered = e.entered →
      d.anchor.isSome = e.anchor.isSome := by
    intro d e h
    unfold CAnchorsSaplingCacheEntry.anchor
    rw [h]
    cases e.entered <;> rfl
  refine .of_lookup (fun e us => some (mergeAnchor e us)) hlook fun e us => ?_
  exact mergesTo_mergeEntered (f := fun e : CAnchorsSaplingCacheEntry => ⟨e.anchor, e.dirty, false⟩)
    (fun _ => rfl) ⟨hval ⟨e.entered, e.tree, true⟩ e rfl, rfl⟩ (fun us => hval us e)
    (fun us => ⟨hval ⟨e.entered, us.tree, true⟩ e rfl, rfl⟩) us

end CacheData

/-- **What a write-back leaves**: a sound view, which reads as the cache did. -/
structure WrittenBack (E : Env) (s : ChainState) (view : CCoinsView) : Prop where
  sound : view.Sound E
  abstract : (view.state E).abstract = s.abstract

theorem ChainState.abstract_eq {s t : ChainState} (hcoins : s.coins = t.coins)
    (hnull : s.nullifiers = t.nullifiers)
    (hanchors : ∀ rt, (s.anchors rt).isSome = (t.anchors rt).isSome)
    (hbest : s.bestAnchor = t.bestAnchor) (hblock : s.bestBlock = t.bestBlock) :
    s.abstract = t.abstract := by
  ext1
  · exact hcoins
  · simp [abstract, hnull]
  · simp [abstract, hanchors]
  · exact hbest
  · exact hblock

namespace CCoinsView

variable {E : Env} {c p : CacheData} {base : CCoinsView} {d : CCoinsViewDB}

/-- Writing a sound cache back into a sound cache succeeds. -/
theorem batchWrite_cache (hbase : base.Sound E) (hp : p.Sound (base.state E))
    (hc : c.Sound (p.state (base.state E))) (hblock : c.hashBlock.isNull = false)
    (hbest : c.hashSaplingAnchor.isNull = false) :
    ∃ view, (CCoinsView.cache p base).batchWrite E c = .ok view ∧
      WrittenBack E (c.state (p.state (base.state E))) view := by
  obtain ⟨coins, hok, hlook⟩ := batchWriteCoins_eq_ok c.cacheCoins.nodupKeys
    fun o e he => freshFits_of_sound hc he
  let p' : CacheData := {
    cacheCoins := coins
    cacheSaplingAnchors := c.cacheSaplingAnchors.entries.foldl
      (fun m e => batchWriteAnchor m e.1 e.2) p.cacheSaplingAnchors
    cacheSaplingNullifiers := c.cacheSaplingNullifiers.entries.foldl
      (fun m e => batchWriteNullifier m e.1 e.2) p.cacheSaplingNullifiers
    hashBlock := c.hashBlock
    hashSaplingAnchor := c.hashSaplingAnchor }
  have hcoins : Merged Eq c.coinLayer p.coinLayer p'.coinLayer :=
    .of_lookup mergeCoin hlook mergesTo_mergeCoin
  have hnull : Merged Eq c.nullifierLayer p.nullifierLayer p'.nullifierLayer :=
    merged_nullifiers (look_foldl (fun (m : CNullifiersMap) nf => m.lookup nf)
      (g := fun _ e w => if !e.dirty then w else some (mergeNullifier e w))
      lookup_batchWriteNullifier c.cacheSaplingNullifiers.nodupKeys _)
  have hanchor : Merged (fun x y => x.isSome = y.isSome) c.anchorLayer p.anchorLayer
      p'.anchorLayer :=
    merged_anchors (look_foldl (fun (m : CAnchorsSaplingMap) rt => m.lookup rt)
      (g := fun _ e w => if !e.dirty then w else some (mergeAnchor e w))
      lookup_batchWriteAnchor c.cacheSaplingAnchors.nodupKeys _)
  have hcleared : ∀ o e, p'.cacheCoins.lookup o = some e → e.coin.isSpent = true →
      e.coin = .empty := by
    intro o e he
    rw [hlook] at he
    cases hce : c.cacheCoins.entries.dlookup o with
    | none =>
      rw [hce] at he
      exact hp.cleared o e he
    | some d =>
      rw [hce, Option.elim_some] at he
      split at he
      · exact hp.cleared o e he
      · exact mergeCoin_cleared (hc.cleared o d hce) he
  refine ⟨.cache p' base, ?_, ⟨hbase, hcoins.sound hc.coins hp.coins, hcleared,
    hanchor.sound hc.anchors hp.anchors, hnull.sound hc.nullifiers hp.nullifiers⟩, ?_⟩
  · rw [batchWrite, hok]
    rfl
  refine ChainState.abstract_eq (hcoins.view_eq hc.coins hp.coins)
    (hnull.view_eq hc.nullifiers hp.nullifiers)
    (fun rt => hanchor.view_rel (fun _ => rfl) hc.anchors hp.anchors rt) ?_ ?_
  · simp [CCoinsView.state, CacheData.state, p', hbest]
  · simp [CCoinsView.state, CacheData.state, p', hblock]

/-! ## Into the database -/

theorem lookup_dbWriteCoin (m : AList fun _ : COutPoint => Coin) (o : COutPoint)
    (e : CCoinsCacheEntry) (o' : COutPoint) :
    (dbWriteCoin m o e).lookup o' =
      if o' = o then if !e.dirty then m.lookup o else e.unspent else m.lookup o' := by
  unfold dbWriteCoin CCoinsCacheEntry.unspent
  by_cases ho : o' = o
  · subst ho
    cases e.dirty <;> cases e.coin.isSpent <;> simp
  · cases e.dirty <;> cases e.coin.isSpent <;> simp [ho]

theorem contains_dbWriteNullifier (m : List Uint256) (nf : Uint256) (e : CNullifiersCacheEntry)
    (nf' : Uint256) : (dbWriteNullifier m nf e).contains nf' =
      if nf' = nf then if !e.dirty then m.contains nf else e.entered else m.contains nf' := by
  unfold dbWriteNullifier
  by_cases hnf : nf' = nf
  · subst hnf
    cases e.dirty <;> cases e.entered <;> simp
  · cases e.dirty <;> cases e.entered <;> simp [hnf]

theorem lookup_dbWriteAnchor (m : AList fun _ : Uint256 => SaplingMerkleTree) (rt : Uint256)
    (e : CAnchorsSaplingCacheEntry) (rt' : Uint256) :
    (dbWriteAnchor E m rt e).lookup rt' =
      if rt' = rt then
        if !e.dirty then m.lookup rt
        else if rt = SaplingMerkleTree.emptyRoot E ∧ e.entered then m.lookup rt else e.anchor
      else m.lookup rt' := by
  unfold dbWriteAnchor CAnchorsSaplingCacheEntry.anchor
  by_cases hrt : rt' = rt
  · subst hrt
    cases e.dirty <;> cases e.entered <;> simp [apply_ite (lookup rt')]
  · split_ifs <;> simp [hrt]

/-- Writing a sound cache back into the database succeeds, if the cache has a best block. -/
theorem batchWrite_db (hd : (CCoinsView.db d).Sound E) (hc : c.Sound (d.state E))
    (hblock : c.hashBlock.isNull = false) (hbest : c.hashSaplingAnchor.isNull = false)
    (hempty : ((c.state (d.state E)).anchors (SaplingMerkleTree.emptyRoot E)).isSome = true) :
    ∃ view, (CCoinsView.db d).batchWrite E c = .ok view ∧
      WrittenBack E (c.state (d.state E)) view := by
  have hcoins := look_foldl (fun m o => m.lookup o)
    (g := fun _ e w => if !e.dirty then w else e.unspent) lookup_dbWriteCoin
    c.cacheCoins.nodupKeys d.coins
  have hnull := look_foldl (fun m nf => m.contains nf)
    (g := fun _ e w => if !e.dirty then w else e.entered) contains_dbWriteNullifier
    c.cacheSaplingNullifiers.nodupKeys d.saplingNullifiers
  have hanchors := look_foldl (fun m rt => m.lookup rt) (g := fun rt e w => if !e.dirty then w
      else if rt = SaplingMerkleTree.emptyRoot E ∧ e.entered then w else e.anchor)
    (lookup_dbWriteAnchor) c.cacheSaplingAnchors.nodupKeys d.saplingAnchors
  refine ⟨_, by rw [batchWrite, hblock, if_neg Bool.false_ne_true], ?_,
    ChainState.abstract_eq ?_ ?_ ?_ ?_ ?_⟩
  · intro o coin hcoin
    rw [hcoins] at hcoin
    cases he : c.cacheCoins.entries.dlookup o with
    | none =>
      rw [he] at hcoin
      exact hd o coin hcoin
    | some e =>
      rw [he, Option.elim_some] at hcoin
      split at hcoin
      · exact hd o coin hcoin
      · unfold CCoinsCacheEntry.unspent at hcoin
        split at hcoin
        · cases hcoin
        · next hs => cases hcoin; simpa using hs
  · funext o
    exact rel_view_of_elim (fun _ => rfl) hc.coins (·.unspent) (hcoins o) fun e => rfl
  · funext nf
    exact rel_view_of_elim (fun _ => rfl) hc.nullifiers (·.entered) (hnull nf) fun e => rfl
  · intro rt
    by_cases hrt : rt = SaplingMerkleTree.emptyRoot E
    · rw [hrt, hempty]
      simp [state, CCoinsViewDB.state]
    · refine rel_view_of_elim (R := fun x y : Option SaplingMerkleTree => x.isSome = y.isSome)
        (fun _ => rfl) hc.anchors (·.anchor) ?_ fun e => rfl
      simpa [state, CCoinsViewDB.state, hrt, lookup] using hanchors rt
  · simp [CCoinsView.state, CCoinsViewDB.state, CacheData.state, hbest]
  · simp [CCoinsView.state, CCoinsViewDB.state, CacheData.state, hblock]

/-- **Writing back** a cache that knows its best block and anchor. -/
theorem batchWrite_spec {view : CCoinsView} (hv : view.Sound E) (hc : c.Sound (view.state E))
    (hblock : c.hashBlock.isNull = false) (hbest : c.hashSaplingAnchor.isNull = false)
    (hempty : ((c.state (view.state E)).anchors (SaplingMerkleTree.emptyRoot E)).isSome = true) :
    ∃ view', view.batchWrite E c = .ok view' ∧ WrittenBack E (c.state (view.state E)) view' := by
  cases view with
  | cache p base => exact batchWrite_cache hv.1 hv.2 hc hblock hbest
  | db d => exact batchWrite_db hv hc hblock hbest hempty

end CCoinsView

/-- **A flush** of a cache that knows its best block and anchor succeeds, and both the cache
and the view below answer as the cache did. -/
theorem CCoinsViewCache.exists_flush {E : Env} {v : CCoinsViewCache} (h : v.Sound E)
    (hblock : v.cache.hashBlock.isNull = false) (hbest : v.cache.hashSaplingAnchor.isNull = false)
    (hempty : ((v.state E).anchors (SaplingMerkleTree.emptyRoot E)).isSome = true) :
    ∃ v', v.flush E = .ok v' ∧ v'.Sound E ∧ (v'.base.state E).abstract = (v.state E).abstract ∧
      (v'.state E).abstract = (v.state E).abstract := by
  obtain ⟨w, hok, hback⟩ := CCoinsView.batchWrite_spec h.1 h.2 hblock hbest hempty
  have habs : (w.state E).abstract = (v.state E).abstract := hback.abstract
  refine ⟨⟨⟨∅, ∅, ∅, v.cache.hashBlock, v.cache.hashSaplingAnchor⟩, w⟩, ?_, ⟨hback.sound,
    sound_empty _, fun _ _ h => (by cases h), sound_empty _, sound_empty _⟩, habs, ?_⟩
  · rw [flush, hok]
    rfl
  -- above the written view stand empty maps, and the best block and anchor it was given
  · rw [← habs]
    refine ChainState.abstract_eq rfl rfl (fun _ => rfl) ?_ ?_
    · have := congrArg AbstractState.bestAnchor habs
      simpa [ChainState.abstract, state, CacheData.state, hbest] using this.symm
    · have := congrArg AbstractState.bestBlock habs
      simpa [ChainState.abstract, state, CacheData.state, hblock] using this.symm

end Passion
