import Passion.Coins.Interface

/-!
# A sound view refines its state

Every operation of a sound cache answers as its state does, and leaves a sound cache whose state has
changed in the same way. `AddCoin` does not ask the view below: without `possible_overwrite` it is
exact for an outpoint that is not unspent, or that the cache knows.
-/

namespace Passion

open CacheData Layered CCoinsCacheEntry Function

/-- How a raw answer of `GetCoin` is to be read: a cleared coin means that there is none. -/
inductive Answers : Option Coin → Option Coin → Prop
  | nothing : Answers none none
  | spent : Answers (some .empty) none
  | unspent {c : Coin} (h : c.isSpent = false) : Answers (some c) (some c)

namespace Answers

variable {r x : Option Coin}

theorem getD_eq (h : Answers r x) : r.getD .empty = x.getD .empty := by
  cases h <;> rfl

theorem eq_empty {c : Coin} (h : Answers (some c) x) (hs : c.isSpent = true) : c = .empty := by
  cases h with
  | spent => rfl
  | unspent hu => rw [hs] at hu; cases hu

/-- An entry with a cleared coin, or an unspent one, answers by its coin. -/
theorem of_entry {e : CCoinsCacheEntry} (h : e.coin.isSpent = true → e.coin = .empty) :
    Answers (some e.coin) e.unspent := by
  unfold CCoinsCacheEntry.unspent
  cases hs : e.coin.isSpent with
  | true => rw [h hs]; exact .spent
  | false => exact .unspent hs

end Answers

namespace CCoinsCacheEntry

theorem unspent_of_isSpent {e : CCoinsCacheEntry} (h : e.coin.isSpent = true) :
    e.unspent = none := by
  simp [unspent, h]

theorem unspent_of_not_isSpent {e : CCoinsCacheEntry} (h : e.coin.isSpent = false) :
    e.unspent = some e.coin := by
  simp [unspent, h]

theorem isSome_unspent (e : CCoinsCacheEntry) : e.unspent.isSome = !e.coin.isSpent := by
  unfold unspent
  cases e.coin.isSpent <;> rfl

end CCoinsCacheEntry

namespace CacheData

variable {c : CacheData} {b : ChainState} {o : COutPoint} {base : CCoinsView}

/-- The layer of an entry. -/
def layerEntry (e : CCoinsCacheEntry) : Entry (Option Coin) := ⟨e.unspent, e.dirty, e.fresh⟩

theorem coinLayer_eq_some {e : CCoinsCacheEntry} (h : c.cacheCoins.lookup o = some e) :
    c.coinLayer o = some (layerEntry e) := by
  simp [coinLayer, h, layerEntry]

theorem coinLayer_eq_none (h : c.cacheCoins.lookup o = none) : c.coinLayer o = none := by
  simp [coinLayer, h]

theorem map_lookup_insert {κ ε β : Type} [DecidableEq κ] (m : AList fun _ : κ => ε) (k : κ)
    (f : ε → β) (e : ε) : (fun k' => ((m.insert k e).lookup k').map f) =
    update (fun k' => (m.lookup k').map f) k (some (f e)) := by
  funext k'
  by_cases hk : k' = k
  · subst hk
    simp
  · simp [hk]

theorem coinLayer_putCoin (e : CCoinsCacheEntry) :
    (c.putCoin o e).coinLayer = update c.coinLayer o (some (layerEntry e)) :=
  map_lookup_insert ..

theorem coinLayer_eraseCoin : (c.eraseCoin o).coinLayer = update c.coinLayer o none := by
  funext o'
  by_cases ho : o' = o
  · subst ho
    simp [coinLayer, eraseCoin]
  · simp [coinLayer, eraseCoin, ho]

theorem anchorLayer_putAnchor (rt : Uint256) (e : CAnchorsSaplingCacheEntry) :
    (c.putAnchor rt e).anchorLayer =
      update c.anchorLayer rt (some ⟨e.anchor, e.dirty, false⟩) :=
  map_lookup_insert ..

theorem nullifierLayer_putNullifier (nf : Uint256) (e : CNullifiersCacheEntry) :
    (c.putNullifier nf e).nullifierLayer =
      update c.nullifierLayer nf (some ⟨e.entered, e.dirty, false⟩) :=
  map_lookup_insert ..

/-- Writing an entry. -/
theorem state_putCoin (e : CCoinsCacheEntry) :
    (c.putCoin o e).state b = (c.state b).setCoin o e.unspent := by
  have h := view_update_some (l := c.coinLayer) (b := b.coins) (k := o) (layerEntry e)
  rw [← coinLayer_putCoin] at h
  ext1
  · exact h
  all_goals rfl

/-- Removing an entry below which there is no coin. -/
theorem state_eraseCoin (h : b.coins o = none) :
    (c.eraseCoin o).state b = (c.state b).setCoin o none := by
  have h := view_update_none (l := c.coinLayer) h
  rw [← coinLayer_eraseCoin] at h
  ext1
  · exact h
  all_goals rfl

theorem coins_of_lookup {e : CCoinsCacheEntry} (h : c.cacheCoins.lookup o = some e) :
    (c.state b).coins o = e.unspent :=
  view_some (coinLayer_eq_some h)

theorem coins_of_lookup_none (h : c.cacheCoins.lookup o = none) : (c.state b).coins o = b.coins o :=
  view_none (coinLayer_eq_none h)

namespace Sound

/-- A cache stays sound when an entry is written whose flags are true. -/
theorem putCoin (h : c.Sound b) {e : CCoinsCacheEntry} (hf : e.fresh = true → b.coins o = none)
    (hc : e.dirty = false → b.coins o = e.unspent) (hs : e.coin.isSpent = true → e.coin = .empty) :
    (c.putCoin o e).Sound b where
  coins := by
    rw [coinLayer_putCoin]
    exact h.coins.update_some hf hc
  cleared := by
    intro o' e' he'
    by_cases ho : o' = o
    · subst ho
      obtain rfl : e = e' := by simpa [putCoin] using he'
      exact hs
    · exact h.cleared o' e' (by simpa [CacheData.putCoin, ho] using he')
  anchors := h.anchors
  nullifiers := h.nullifiers

theorem eraseCoin (h : c.Sound b) : (c.eraseCoin o).Sound b where
  coins := by
    rw [coinLayer_eraseCoin]
    exact h.coins.update_none
  cleared := by
    intro o' e' he'
    by_cases ho : o' = o
    · subst ho
      simp [eraseCoin] at he'
    · exact h.cleared o' e' (by simpa [CacheData.eraseCoin, ho] using he')
  anchors := h.anchors
  nullifiers := h.nullifiers

theorem coins_of_fresh (h : c.Sound b) {e : CCoinsCacheEntry}
    (he : c.cacheCoins.lookup o = some e) (hf : e.fresh = true) : b.coins o = none :=
  h.coins.fresh o _ (coinLayer_eq_some he) hf

end Sound

/-! ### Fetching -/

/-- What a question leaves of a cache: it stays sound and in its state. -/
structure Kept (c : CacheData) (b : ChainState) (c' : CacheData) : Prop where
  sound : c'.Sound b
  state : c'.state b = c.state b

/-- **What `FetchCoin` leaves**, `r` being its result: the entry it returns is in the cache
and answers for the coin, nothing else is visible. -/
structure Fetched (c : CacheData) (b : ChainState) (o : COutPoint)
    (r : Option CCoinsCacheEntry × CacheData × CCoinsView) : Prop extends Kept c b r.2.1 where
  lookup : r.2.1.cacheCoins.lookup o = r.1
  answers : Answers (r.1.map (·.coin)) ((c.state b).coins o)

theorem fetchCoin_spec (base : CCoinsView) (h : c.Sound b) {answer : Option Coin × CCoinsView}
    (ha : Answers answer.1 (b.coins o)) : c.Fetched b o (c.fetchCoin o base answer) := by
  unfold fetchCoin
  cases he : c.cacheCoins.lookup o with
  | some e =>
    exact ⟨⟨h, rfl⟩, he, by rw [coins_of_lookup he]; exact .of_entry (h.cleared o e he)⟩
  | none =>
    have hstate := coins_of_lookup_none (b := b) he
    cases hr : answer.1 with
    | none =>
      rw [hr] at ha
      exact ⟨⟨h, rfl⟩, he, by rw [hstate]; exact ha⟩
    | some coin =>
      rw [hr] at ha
      -- the entry that is stored answers as the view below did
      have hb : b.coins o = unspent ⟨coin, false, coin.isSpent⟩ := by
        generalize b.coins o = x at ha
        cases ha with
        | spent => rfl
        | unspent hu => rw [unspent_of_not_isSpent hu]
      refine ⟨⟨h.putCoin ?_ (fun _ => hb) ?_, ?_⟩, by simp [putCoin], by rw [hstate]; exact ha⟩
      · intro hf
        rw [hb]
        exact unspent_of_isSpent hf
      · exact ha.eq_empty
      · rw [state_putCoin, ← hb, ← hstate]
        ext1
        · exact update_eq_self _ _
        all_goals rfl

/-- `GetSaplingAnchorAt` answers as the state, which it leaves as it is. -/
theorem fetchAnchor_spec (base : CCoinsView) (h : c.Sound b) {rt : Uint256}
    {answer : Option SaplingMerkleTree × CCoinsView} (ha : answer.1 = b.anchors rt) :
    (c.fetchAnchor rt base answer).1 = (c.state b).anchors rt ∧
      c.Kept b (c.fetchAnchor rt base answer).2.1 := by
  unfold fetchAnchor
  cases he : c.cacheSaplingAnchors.lookup rt with
  | some e =>
    have hlayer : c.anchorLayer rt = some ⟨e.anchor, e.dirty, false⟩ := by simp [anchorLayer, he]
    have hstate : (c.state b).anchors rt = e.anchor := view_some hlayer
    exact ⟨hstate.symm, ⟨h, rfl⟩⟩
  | none =>
    have hlayer : c.anchorLayer rt = none := by simp [anchorLayer, he]
    have hstate : (c.state b).anchors rt = b.anchors rt := view_none hlayer
    cases hr : answer.1 with
    | none => exact ⟨by rw [hstate, ← ha, hr], ⟨h, rfl⟩⟩
    | some tree =>
      have hb : b.anchors rt = some tree := by rw [← ha, hr]
      have hins : (c.putAnchor rt ⟨true, tree, false⟩).anchorLayer =
          update c.anchorLayer rt (some ⟨b.anchors rt, false, false⟩) := by
        rw [anchorLayer_putAnchor, hb]
        rfl
      refine ⟨by rw [hstate, hb], ⟨h.coins, h.cleared, ?_, h.nullifiers⟩, ?_⟩
      · rw [hins]
        exact h.anchors.fetch (by simp)
      · ext1
        case anchors => simp only [state, hins, view_fetch hlayer]
        all_goals rfl

/-- `GetNullifier` answers as the state, which it leaves as it is. -/
theorem fetchNullifier_spec (base : CCoinsView) (h : c.Sound b) {nf : Uint256}
    {answer : Bool × CCoinsView} (ha : answer.1 = b.nullifiers nf) :
    (c.fetchNullifier nf base answer).1 = (c.state b).nullifiers nf ∧
      c.Kept b (c.fetchNullifier nf base answer).2.1 := by
  unfold fetchNullifier
  cases he : c.cacheSaplingNullifiers.lookup nf with
  | some e =>
    have hlayer : c.nullifierLayer nf = some ⟨e.entered, e.dirty, false⟩ := by
      simp [nullifierLayer, he]
    have hstate : (c.state b).nullifiers nf = e.entered := view_some hlayer
    exact ⟨hstate.symm, ⟨h, rfl⟩⟩
  | none =>
    have hlayer : c.nullifierLayer nf = none := by simp [nullifierLayer, he]
    have hstate : (c.state b).nullifiers nf = b.nullifiers nf := view_none hlayer
    have hins : (c.putNullifier nf ⟨answer.1, false⟩).nullifierLayer =
        update c.nullifierLayer nf (some ⟨b.nullifiers nf, false, false⟩) := by
      rw [nullifierLayer_putNullifier, ha]
    refine ⟨by rw [hstate]; exact ha, ⟨h.coins, h.cleared, h.anchors, ?_⟩, ?_⟩
    · rw [hins]
      exact h.nullifiers.fetch (by simp)
    · ext1
      case nullifiers => simp only [state, hins, view_fetch hlayer]
      all_goals rfl

variable {answer : Uint256 × CCoinsView}

/-- `GetBestBlock` answers as the state, which it leaves as it is. -/
theorem fetchBestBlock_spec (base : CCoinsView) (h : c.Sound b) (ha : answer.1 = b.bestBlock) :
    (c.fetchBestBlock base answer).1 = (c.state b).bestBlock ∧
      c.Kept b (c.fetchBestBlock base answer).2.1 := by
  unfold fetchBestBlock
  cases hn : c.hashBlock.isNull with
  | false => exact ⟨by simp [state, hn], h, rfl⟩
  | true =>
    refine ⟨by simp [state, hn, ha], ⟨h.coins, h.cleared, h.anchors, h.nullifiers⟩, ?_⟩
    ext1
    case bestBlock => simp [state, hn, ha]
    all_goals rfl

/-- `GetBestAnchor` answers as the state, which it leaves as it is. -/
theorem fetchBestAnchor_spec (base : CCoinsView) (h : c.Sound b) (ha : answer.1 = b.bestAnchor) :
    (c.fetchBestAnchor base answer).1 = (c.state b).bestAnchor ∧
      c.Kept b (c.fetchBestAnchor base answer).2.1 := by
  unfold fetchBestAnchor
  cases hn : c.hashSaplingAnchor.isNull with
  | false => exact ⟨by simp [state, hn], h, rfl⟩
  | true =>
    refine ⟨by simp [state, hn, ha], ⟨h.coins, h.cleared, h.anchors, h.nullifiers⟩, ?_⟩
    ext1
    case bestAnchor => simp [state, hn, ha]
    all_goals rfl

/-! ### The cache and the view below after a question -/

theorem fetchCoin_below (answer : Option Coin × CCoinsView) :
    (c.fetchCoin o base answer).2.2 = base ∨ (c.fetchCoin o base answer).2.2 = answer.2 := by
  unfold fetchCoin
  cases c.cacheCoins.lookup o with
  | some e => exact .inl rfl
  | none => cases answer.1 <;> exact .inr rfl

/-- **A question that is not about coins**, `r` being what it leaves: the cache has the coins it
had, and the view below is as it was or as its own answer left it. -/
structure Passes (c : CacheData) (base answered : CCoinsView) (r : CacheData × CCoinsView) :
    Prop where
  cacheCoins : r.1.cacheCoins = c.cacheCoins
  below : r.2 = base ∨ r.2 = answered

theorem passes_fetchAnchor (rt : Uint256) (answer : Option SaplingMerkleTree × CCoinsView) :
    c.Passes base answer.2 (c.fetchAnchor rt base answer).2 := by
  unfold fetchAnchor
  cases c.cacheSaplingAnchors.lookup rt with
  | some e => exact ⟨rfl, .inl rfl⟩
  | none => cases answer.1 <;> exact ⟨rfl, .inr rfl⟩

theorem passes_fetchNullifier (nf : Uint256) (answer : Bool × CCoinsView) :
    c.Passes base answer.2 (c.fetchNullifier nf base answer).2 := by
  unfold fetchNullifier
  cases c.cacheSaplingNullifiers.lookup nf with
  | some e => exact ⟨rfl, .inl rfl⟩
  | none => exact ⟨rfl, .inr rfl⟩

theorem passes_fetchBestBlock (answer : Uint256 × CCoinsView) :
    c.Passes base answer.2 (c.fetchBestBlock base answer).2 := by
  unfold fetchBestBlock
  split
  · exact ⟨rfl, .inr rfl⟩
  · exact ⟨rfl, .inl rfl⟩

theorem passes_fetchBestAnchor (answer : Uint256 × CCoinsView) :
    c.Passes base answer.2 (c.fetchBestAnchor base answer).2 := by
  unfold fetchBestAnchor
  split
  · exact ⟨rfl, .inr rfl⟩
  · exact ⟨rfl, .inl rfl⟩

end CacheData

/-! ## Reading through a stack of caches -/

namespace CCoinsView

variable {E : Env}

/-- The view `w` is sound and in the state `s`. -/
structure Shows (E : Env) (w : CCoinsView) (s : ChainState) : Prop where
  sound : w.Sound E
  state : w.state E = s

/-- **A question to a cache** leaves what it shows, if the cache kept its part of it and the
view below shows what it did after being asked. -/
theorem Shows.cache {c c' : CacheData} {base base' answered : CCoinsView} (hbase : base.Sound E)
    (hb : answered.Shows E (base.state E)) (hbelow : base' = base ∨ base' = answered)
    (hc : c.Kept (base.state E) c') :
    (CCoinsView.cache c' base').Shows E ((CCoinsView.cache c base).state E) := by
  have hb : base'.Shows E (base.state E) := by
    rcases hbelow with rfl | rfl
    · exact ⟨hbase, rfl⟩
    · exact hb
  refine ⟨⟨hb.sound, ?_⟩, ?_⟩
  · rw [hb.state]
    exact hc.sound
  · simp only [CCoinsView.state]
    rw [hb.state, hc.state]

variable {v : CCoinsView}

/-- **`GetCoin`** answers as the state of the view, which it leaves as it is. -/
theorem getCoin_spec (o : COutPoint) (h : v.Sound E) :
    Answers (v.getCoin o).1 ((v.state E).coins o) ∧ (v.getCoin o).2.Shows E (v.state E) := by
  induction v with
  | db d =>
    refine ⟨?_, h, rfl⟩
    simp only [getCoin, state, CCoinsViewDB.state]
    cases hl : d.coins.lookup o with
    | none => exact .nothing
    | some c => exact .unspent (h o c hl)
  | cache c base ih =>
    obtain ⟨ha, hb⟩ := ih h.1
    have hf := fetchCoin_spec base h.2 ha
    exact ⟨hf.answers, Shows.cache h.1 hb (fetchCoin_below _) hf.toKept⟩

theorem getSaplingAnchorAt_spec (rt : Uint256) (h : v.Sound E) :
    (v.getSaplingAnchorAt E rt).1 = (v.state E).anchors rt ∧
      (v.getSaplingAnchorAt E rt).2.Shows E (v.state E) := by
  induction v with
  | db d =>
    simp only [getSaplingAnchorAt, state, CCoinsViewDB.state]
    split
    · exact ⟨rfl, h, rfl⟩
    · exact ⟨rfl, h, rfl⟩
  | cache c base ih =>
    obtain ⟨ha, hb⟩ := ih h.1
    obtain ⟨hr, hk⟩ := fetchAnchor_spec base h.2 ha
    exact ⟨hr, Shows.cache h.1 hb (passes_fetchAnchor rt _).below hk⟩

theorem getNullifier_spec (nf : Uint256) (h : v.Sound E) :
    (v.getNullifier nf).1 = (v.state E).nullifiers nf ∧
      (v.getNullifier nf).2.Shows E (v.state E) := by
  induction v with
  | db d => exact ⟨rfl, h, rfl⟩
  | cache c base ih =>
    obtain ⟨ha, hb⟩ := ih h.1
    obtain ⟨hr, hk⟩ := fetchNullifier_spec base h.2 ha
    exact ⟨hr, Shows.cache h.1 hb (passes_fetchNullifier nf _).below hk⟩

theorem getBestBlock_spec (h : v.Sound E) :
    v.getBestBlock.1 = (v.state E).bestBlock ∧ v.getBestBlock.2.Shows E (v.state E) := by
  induction v with
  | db d => exact ⟨rfl, h, rfl⟩
  | cache c base ih =>
    obtain ⟨ha, hb⟩ := ih h.1
    obtain ⟨hr, hk⟩ := fetchBestBlock_spec base h.2 ha
    exact ⟨hr, Shows.cache h.1 hb (passes_fetchBestBlock _).below hk⟩

theorem getBestAnchor_spec (h : v.Sound E) :
    (v.getBestAnchor E).1 = (v.state E).bestAnchor ∧
      (v.getBestAnchor E).2.Shows E (v.state E) := by
  induction v with
  | db d => exact ⟨rfl, h, rfl⟩
  | cache c base ih =>
    obtain ⟨ha, hb⟩ := ih h.1
    obtain ⟨hr, hk⟩ := fetchBestAnchor_spec base h.2 ha
    exact ⟨hr, Shows.cache h.1 hb (passes_fetchBestAnchor _).below hk⟩

end CCoinsView

/-! ## The operations of a cache

What each operation of a sound cache does to its state. `AddCoin` does not ask the view below:
without `possible_overwrite` it is exact for an outpoint that is not unspent. A null hash means
that a cache has not asked yet, so the anchors that are set are not null.
-/

open Stateful CoinsView CacheData CCoinsCacheEntry

namespace CCoinsViewCache

variable {E : Env} {v v' : CCoinsViewCache}

/-- What reading does to a cache: it stays sound and in its state. -/
structure Read (E : Env) (v v' : CCoinsViewCache) : Prop where
  sound : v'.Sound E
  state : v'.state E = v.state E

theorem Read.of_shows (h : v'.toView.Shows E (v.state E)) : Read E v v' := ⟨h.sound, h.state⟩

theorem Read.shows (h : Read E v v') : v'.toView.Shows E (v.state E) := ⟨h.sound, h.state⟩

section

variable (h : v.Sound E)

include h

variable (o : COutPoint)

theorem fetchCoin_spec :
    Read E v (v.fetchCoin o).2 ∧
      (v.fetchCoin o).2.cache.cacheCoins.lookup o = (v.fetchCoin o).1 ∧
      Answers ((v.fetchCoin o).1.map (·.coin)) ((v.state E).coins o) := by
  obtain ⟨ha, hb⟩ := CCoinsView.getCoin_spec o h.1
  have hf := CacheData.fetchCoin_spec v.base h.2 ha
  refine ⟨.of_shows ?_, hf.lookup, hf.answers⟩
  exact CCoinsView.Shows.cache h.1 hb (fetchCoin_below _) hf.toKept

theorem accessCoin_spec :
    (v.accessCoin o).1 = ((v.state E).coins o).getD .empty ∧ Read E v (v.accessCoin o).2 := by
  obtain ⟨hread, -, ha⟩ := fetchCoin_spec h o
  rw [← ha.getD_eq]
  unfold accessCoin
  cases hf : (v.fetchCoin o).1 <;> simp only [hf] <;> exact ⟨rfl, hread⟩

theorem haveCoin_spec :
    (v.haveCoin o).1 = ((v.state E).coins o).isSome ∧ Read E v (v.haveCoin o).2 := by
  obtain ⟨hread, hl, ha⟩ := fetchCoin_spec h o
  unfold haveCoin
  cases hf : (v.fetchCoin o).1 with
  | none =>
    simp only [hf]
    rw [hf] at ha
    generalize (v.state E).coins o = x at ha
    cases ha
    exact ⟨rfl, hread⟩
  | some e =>
    simp only [hf]
    rw [hf] at hl
    rw [← hread.state, state, coins_of_lookup hl, isSome_unspent]
    exact ⟨rfl, hread⟩

/-- **`SpendCoin`** moves the coin out and leaves none. -/
theorem spendCoin_spec :
    (v.spendCoin o).2.Sound E ∧ (v.spendCoin o).2.state E = (v.state E).setCoin o none := by
  obtain ⟨hread, hl, ha⟩ := fetchCoin_spec h o
  unfold spendCoin
  cases hf : (v.fetchCoin o).1 with
  | none =>
    simp only [hf]
    refine ⟨hread.sound, ?_⟩
    rw [hf] at ha
    have hnone : (v.state E).coins o = none := by
      generalize (v.state E).coins o = x at ha
      cases ha
      rfl
    rw [hread.state, ChainState.setCoin, ← hnone, Function.update_eq_self]
  | some e =>
    simp only [hf]
    rw [hf] at hl
    rw [← hread.state]
    cases hfresh : e.fresh with
    | true =>
      have hb := hread.sound.2.coins_of_fresh hl hfresh
      exact ⟨⟨hread.sound.1, hread.sound.2.eraseCoin⟩, state_eraseCoin hb⟩
    | false =>
      exact ⟨⟨hread.sound.1, hread.sound.2.putCoin (by simp) (by simp) fun _ => rfl⟩,
        state_putCoin _⟩

/-- What `AddCoin` finds in the cache where it may overwrite or there is no coin: no unspent
entry that it would have to report, and no reason for a fresh entry above a coin. -/
theorem entry_of_free {o : COutPoint} {overwrite : Bool}
    (hfree : overwrite = false → (v.state E).coins o = none) {e : CCoinsCacheEntry}
    (he : (v.cache.cacheCoins.lookup o).getD ⟨.empty, false, false⟩ = e) :
    (overwrite = false → e.coin.isSpent = true) ∧
      ((e.fresh || (!overwrite && !e.dirty)) = true → (v.base.state E).coins o = none) := by
  cases hl : v.cache.cacheCoins.lookup o with
  | none =>
    rw [hl] at he
    subst he
    refine ⟨fun _ => rfl, fun hf => ?_⟩
    rw [← coins_of_lookup_none hl]
    exact hfree (by simpa using hf)
  | some e' =>
    rw [hl] at he
    obtain rfl : e' = e := he
    have hspent : overwrite = false → e'.unspent = none := by
      intro hov
      rw [← coins_of_lookup hl]
      exact hfree hov
    refine ⟨fun hov => ?_, fun hf => ?_⟩
    · have := congrArg Option.isSome (hspent hov)
      simpa [isSome_unspent] using this
    · cases hef : e'.fresh with
      | true => exact h.2.coins_of_fresh hl hef
      | false =>
        rw [hef, Bool.false_or, Bool.and_eq_true, Bool.not_eq_true', Bool.not_eq_true'] at hf
        exact (h.2.coins.clean o _ (coinLayer_eq_some hl) hf.2).trans (hspent hf.1)

/-- **`AddCoin`** of an unspent coin, where it may overwrite or there is no coin. -/
theorem addCoin_spec {o : COutPoint} {c : Coin} {overwrite : Bool} (hspent : c.isSpent = false)
    (hfree : overwrite = false → (v.state E).coins o = none) :
    ∃ v', v.addCoin o c overwrite = .ok v' ∧ v'.Sound E ∧
      v'.state E = if CScript.isUnspendable c.out.scriptPubKey then v.state E
        else (v.state E).setCoin o (some c) := by
  unfold addCoin
  rw [hspent]
  by_cases huns : CScript.isUnspendable c.out.scriptPubKey = true
  · rw [if_pos huns, if_pos huns]
    exact ⟨v, rfl, h, rfl⟩
  rw [if_neg huns, if_neg huns]
  dsimp only
  generalize he : (v.cache.cacheCoins.lookup o).getD ⟨.empty, false, false⟩ = e
  obtain ⟨hover, hfresh⟩ := entry_of_free h hfree he
  have hcond : (!overwrite && !e.coin.isSpent) = false := by
    cases overwrite with
    | true => rfl
    | false => simp [hover rfl]
  have hunspent : unspent ⟨c, true, e.fresh || (!overwrite && !e.dirty)⟩
      = some c := unspent_of_not_isSpent hspent
  rw [hcond]
  refine ⟨_, rfl, ⟨h.1, h.2.putCoin hfresh (by simp) fun hs => ?_⟩, ?_⟩
  · rw [hspent] at hs
    cases hs
  · exact (state_putCoin _).trans (by rw [hunspent]; rfl)

theorem setNullifier_spec (nf : Uint256) (spent : Bool) :
    (v.setNullifier nf spent).Sound E ∧
      (v.setNullifier nf spent).state E = (v.state E).setNullifier nf spent := by
  have hlayer := nullifierLayer_putNullifier (c := v.cache) nf ⟨spent, true⟩
  refine ⟨⟨h.1, h.2.coins, h.2.cleared, h.2.anchors, ?_⟩, ?_⟩
  · exact hlayer ▸ h.2.nullifiers.update_some (by simp) (by simp)
  · ext1
    case nullifiers => exact (congrArg (Layered.view · _) hlayer).trans (Layered.view_update_some _)
    all_goals rfl

/-- Setting the best block: a null hash would be looked up below. -/
theorem setBestBlock_spec (hash : Uint256) :
    (v.setBestBlock hash).Sound E ∧ (v.setBestBlock hash).state E = (v.state E).setBestBlock
      (if hash.isNull then (v.base.state E).bestBlock else hash) :=
  ⟨⟨h.1, h.2.coins, h.2.cleared, h.2.anchors, h.2.nullifiers⟩, rfl⟩

theorem setAnchor_spec (rt : Uint256) (e : CAnchorsSaplingCacheEntry) (hdirty : e.dirty = true)
    {best : Uint256} (hbest : best.isNull = false) :
    (v.setAnchor rt e best).Sound E ∧
      (v.setAnchor rt e best).state E = (v.state E).setAnchor rt e.anchor best := by
  have hlayer := anchorLayer_putAnchor (c := v.cache) rt e
  refine ⟨⟨h.1, h.2.coins, h.2.cleared, ?_, h.2.nullifiers⟩, ?_⟩
  · exact hlayer ▸ h.2.anchors.update_some (by simp) (by simp [hdirty])
  · ext1
    case anchors => exact (congrArg (Layered.view · _) hlayer).trans (Layered.view_update_some _)
    case bestAnchor =>
      change (if best.isNull then _ else best) = best
      rw [hbest]
      rfl
    all_goals rfl

theorem getBestAnchor_read :
    (v.getBestAnchor E).1 = (v.state E).bestAnchor ∧ Read E v (v.getBestAnchor E).2 := by
  obtain ⟨hr, hshows⟩ := CCoinsView.getBestAnchor_spec (v := v.toView) h
  exact ⟨hr, .of_shows hshows⟩

/-- **`PushAnchor`** of a tree whose root is not the null hash. -/
theorem pushAnchor_spec {tree : SaplingMerkleTree} (hroot : (tree.root E).isNull = false) :
    (v.pushAnchor E tree).Sound E ∧ (v.pushAnchor E tree).state E =
      if (v.state E).bestAnchor = tree.root E then v.state E
      else (v.state E).setAnchor (tree.root E) (some tree) (tree.root E) := by
  obtain ⟨hr, hread⟩ := getBestAnchor_read h
  unfold pushAnchor
  dsimp only
  rw [hr]
  by_cases hb : (v.state E).bestAnchor = tree.root E
  · rw [if_pos hb, if_pos hb]
    exact ⟨hread.sound, hread.state⟩
  · rw [if_neg hb, if_neg hb]
    have hs := setAnchor_spec hread.sound (tree.root E) ⟨true, tree, true⟩ rfl hroot
    rw [hread.state] at hs
    exact hs

/-- **`PopAnchor`** to a root that is not the null hash, from an anchor that is there. -/
theorem popAnchor_spec {newrt : Uint256} (hroot : newrt.isNull = false)
    (hbest : (v.state E).bestAnchor ≠ newrt → ((v.state E).anchors (v.state E).bestAnchor).isSome) :
    ∃ v', v.popAnchor E newrt = .ok v' ∧ v'.Sound E ∧ v'.state E =
      if (v.state E).bestAnchor = newrt then v.state E
      else (v.state E).setAnchor (v.state E).bestAnchor none newrt := by
  obtain ⟨hr, hread⟩ := getBestAnchor_read h
  unfold popAnchor
  dsimp only
  rw [hr]
  by_cases hb : (v.state E).bestAnchor = newrt
  · rw [if_pos hb, if_pos hb]
    exact ⟨_, rfl, hread.sound, hread.state⟩
  · rw [if_neg hb, if_neg hb]
    obtain ⟨ht, hshows'⟩ := CCoinsView.getSaplingAnchorAt_spec (v.state E).bestAnchor
      (v := (v.getBestAnchor E).2.toView) hread.sound
    have hread' : Read E (v.getBestAnchor E).2
        ((v.getBestAnchor E).2.getSaplingAnchorAt E (v.state E).bestAnchor).2 := .of_shows hshows'
    have ht : ((v.getBestAnchor E).2.getSaplingAnchorAt E (v.state E).bestAnchor).1 =
        ((v.getBestAnchor E).2.state E).anchors (v.state E).bestAnchor := ht
    rw [hread.state] at ht
    obtain ⟨tree, htree⟩ := Option.isSome_iff_exists.mp (hbest hb)
    rw [ht, htree]
    have hs := setAnchor_spec hread'.sound (v.state E).bestAnchor ⟨false, tree, true⟩ rfl hroot
    rw [hread'.state, hread.state] at hs
    exact ⟨_, rfl, hs⟩

/-- `Uncache` changes no answer. -/
theorem uncache_spec : (v.uncache o).Sound E ∧ (v.uncache o).state E = v.state E := by
  unfold uncache
  cases he : v.cache.cacheCoins.lookup o with
  | none => exact ⟨h, rfl⟩
  | some e =>
    dsimp only
    split
    · next hflags =>
      obtain ⟨hdirty, -⟩ := Bool.and_eq_true_iff.mp hflags
      have hlayer := coinLayer_eq_some he
      have hclean := h.2.coins.clean o _ hlayer (by simpa [layerEntry] using hdirty)
      have hview := Layered.view_forget hlayer hclean
      rw [← coinLayer_eraseCoin] at hview
      refine ⟨⟨h.1, h.2.eraseCoin⟩, ?_⟩
      ext1
      · exact hview
      all_goals rfl
    · exact ⟨h, rfl⟩

end

end CCoinsViewCache

/-! ## The nullifiers of a transaction -/

/-- The nullifiers a transaction shows. -/
def CTransaction.nullifiers (tx : CTransaction) : List Uint256 :=
  tx.shieldedSpends.map (·.nullifier)

namespace ChainState

/-- The state with the answer for some nullifiers replaced. -/
def markNullifiers (s : ChainState) (nfs : List Uint256) (spent : Bool) : ChainState :=
  { s with nullifiers := fun nf => if nf ∈ nfs then spent else s.nullifiers nf }

theorem markNullifiers_nil (s : ChainState) (spent : Bool) : s.markNullifiers [] spent = s := by
  ext1 <;> simp [markNullifiers]

theorem markNullifiers_cons (s : ChainState) (nf : Uint256) (nfs : List Uint256) (spent : Bool) :
    (s.setNullifier nf spent).markNullifiers nfs spent = s.markNullifiers (nf :: nfs) spent := by
  ext1
  case nullifiers =>
    funext nf'
    by_cases hnf : nf' = nf
    · subst hnf
      simp [markNullifiers, setNullifier]
    · simp [markNullifiers, setNullifier, hnf]
  all_goals rfl

end ChainState

/-- **`SetNullifiers`** marks the nullifiers of the transaction. -/
theorem CCoinsViewCache.setNullifiers_spec {E : Env} {v : CCoinsViewCache} (h : v.Sound E)
    (tx : CTransaction) (spent : Bool) :
    ∃ v', (setNullifiers tx spent).run v = .ok ((), v') ∧ v'.Sound E ∧
      v'.state E = (v.state E).markNullifiers tx.nullifiers spent := by
  unfold setNullifiers CTransaction.nullifiers
  induction tx.shieldedSpends generalizing v with
  | nil => exact ⟨v, rfl, h, (ChainState.markNullifiers_nil _ _).symm⟩
  | cons spend spends ih =>
    obtain ⟨hs, hstate⟩ := v.setNullifier_spec h spend.nullifier spent
    obtain ⟨v', hrun, hs', hstate'⟩ := ih hs
    refine ⟨v', ?_, hs', ?_⟩
    · have hstep : (CoinsView.setNullifier spend.nullifier spent).run v =
          .ok ((), v.setNullifier spend.nullifier spent) := rfl
      rw [forEach, run_bind_of_ok hstep, hrun]
    · rw [hstate', hstate, ChainState.markNullifiers_cons, List.map_cons]

end Passion
