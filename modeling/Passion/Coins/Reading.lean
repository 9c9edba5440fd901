import Passion.Coins.Refinement

/-!
# What reading leaves behind

Reading a coin through a cache stores it there. Nothing is assumed of the caches here, not
even that their flags are true: a cache that has read more than another answers alike, and
spending and adding coins keep the two in step. A coin that was read can only make `AddCoin`
throw where it would have gone unnoticed.
-/

namespace Passion

open CacheData Stateful CoinsView Follows

/-! ## The views below -/

namespace CCoinsView

/-- The two views give the same answers to `GetCoin`. -/
def SameCoins (b b' : CCoinsView) : Prop := ∀ o, (b.getCoin o).1 = (b'.getCoin o).1

theorem SameCoins.refl (b : CCoinsView) : b.SameCoins b := fun _ => rfl

theorem SameCoins.symm {b b' : CCoinsView} (h : b.SameCoins b') : b'.SameCoins b :=
  fun o => (h o).symm

theorem SameCoins.trans {b b' b'' : CCoinsView} (h : b.SameCoins b') (h' : b'.SameCoins b'') :
    b.SameCoins b'' := fun o => (h o).trans (h' o)

/-- The entry a cache stores for a coin it reads. -/
def entryOf (c : Coin) : CCoinsCacheEntry := ⟨c, false, c.isSpent⟩

end CCoinsView

open CCoinsView

variable {u v w : CCoinsViewCache}

namespace CacheData

variable {c : CacheData} {base : CCoinsView}

theorem fetchCoin_fst (o : COutPoint) (answer : Option Coin × CCoinsView) :
    (c.fetchCoin o base answer).1 = (c.cacheCoins.lookup o).or (answer.1.map entryOf) := by
  unfold fetchCoin
  cases c.cacheCoins.lookup o with
  | some e => rfl
  | none => cases answer.1 <;> rfl

theorem fetchCoin_lookup (c : CacheData) (base : CCoinsView) (o o' : COutPoint)
    (answer : Option Coin × CCoinsView) :
    (c.fetchCoin o base answer).2.1.cacheCoins.lookup o' =
      if o' = o then (c.fetchCoin o base answer).1 else c.cacheCoins.lookup o' := by
  unfold fetchCoin
  by_cases ho : o' = o
  · subst ho
    cases hl : c.cacheCoins.lookup o' with
    | some e => simp [hl]
    | none => cases answer.1 <;> simp [hl, putCoin]
  · rw [if_neg ho]
    cases c.cacheCoins.lookup o with
    | some e => rfl
    | none => cases answer.1 <;> simp [putCoin, ho]

end CacheData

/-! ## Having read more -/

namespace CCoinsViewCache

/-- **The cache `v` has read more than `w`**: over views with the same coins, it has the
entries of `w` and, of those `w` lacks, some as reading stores them. -/
structure ReadMore (v w : CCoinsViewCache) : Prop where
  base : v.base.SameCoins w.base
  entry : ∀ o, v.cache.cacheCoins.lookup o = w.cache.cacheCoins.lookup o ∨
    w.cache.cacheCoins.lookup o = none ∧ ∃ c, (w.base.getCoin o).1 = some c ∧
      v.cache.cacheCoins.lookup o = some (entryOf c)

namespace ReadMore

theorem refl (v : CCoinsViewCache) : ReadMore v v := ⟨.refl _, fun _ => .inl rfl⟩

theorem trans (h : ReadMore u v) (h' : ReadMore v w) : ReadMore u w := by
  refine ⟨h.base.trans h'.base, fun o => ?_⟩
  rcases h.entry o with huv | ⟨hv, c, hc, hu⟩
  · rw [huv]
    exact h'.entry o
  · rcases h'.entry o with hvw | ⟨-, c', -, hv'⟩
    · exact .inr ⟨by rw [← hvw, hv], c, by rw [← h'.base o, hc], hu⟩
    · rw [hv] at hv'
      cases hv'

/-- A question that is not about coins. -/
theorem of_passes {r : CacheData × CCoinsView} {answered : CCoinsView}
    (h : v.cache.Passes v.base answered r) (hb : answered.SameCoins v.base) :
    ReadMore ⟨r.1, r.2⟩ v := by
  refine ⟨?_, fun o => .inl (by rw [h.cacheCoins])⟩
  rcases h.below with heq | heq <;> simp only [heq]
  · exact .refl _
  · exact hb

variable (h : ReadMore v w)

include h

/-- Two caches stay in step when nothing happens to their coins. -/
theorem congr {c d : CacheData} (hc : c.cacheCoins = v.cache.cacheCoins)
    (hd : d.cacheCoins = w.cache.cacheCoins) : ReadMore ⟨c, v.base⟩ ⟨d, w.base⟩ :=
  ⟨h.base, fun o => by rw [hc, hd]; exact h.entry o⟩

theorem putCoin (o : COutPoint) (e : CCoinsCacheEntry) :
    ReadMore { v with cache := v.cache.putCoin o e } { w with cache := w.cache.putCoin o e } := by
  refine ⟨h.base, fun o' => ?_⟩
  by_cases ho : o' = o
  · subst ho
    simp [CacheData.putCoin]
  · simpa [CacheData.putCoin, ho] using h.entry o'

theorem eraseCoin (o : COutPoint) :
    ReadMore { v with cache := v.cache.eraseCoin o } { w with cache := w.cache.eraseCoin o } := by
  refine ⟨h.base, fun o' => ?_⟩
  by_cases ho : o' = o
  · subst ho
    simp [CacheData.eraseCoin]
  · simpa [CacheData.eraseCoin, ho] using h.entry o'

/-- The answers to `GetCoin` are the same. -/
theorem sameCoins : v.toView.SameCoins w.toView := by
  intro o
  simp only [toView, getCoin, fetchCoin_fst]
  rcases h.entry o with heq | ⟨hw, c, hc, hv⟩
  · rw [heq, h.base o]
  · rw [hw, hv, hc]
    rfl

end ReadMore

theorem sameCoins_fetchCoin {v : CCoinsViewCache} {o : COutPoint}
    (hb : (v.base.getCoin o).2.SameCoins v.base) : (v.fetchCoin o).2.base.SameCoins v.base := by
  have hbelow : (v.fetchCoin o).2.base = v.base ∨ (v.fetchCoin o).2.base = (v.base.getCoin o).2 :=
    fetchCoin_below (v.base.getCoin o)
  rcases hbelow with heq | heq <;> rw [heq]
  · exact .refl _
  · exact hb

theorem readMore_fetchCoin {v : CCoinsViewCache} {o : COutPoint}
    (hb : (v.base.getCoin o).2.SameCoins v.base) : ReadMore (v.fetchCoin o).2 v := by
  have hbase := sameCoins_fetchCoin hb
  refine ⟨hbase, fun o' => ?_⟩
  have hl := fetchCoin_lookup v.cache v.base o o' (v.base.getCoin o)
  by_cases ho : o' = o
  · subst ho
    rw [if_pos rfl, fetchCoin_fst] at hl
    cases hv : v.cache.cacheCoins.lookup o' with
    | some e => exact .inl (by rw [hv] at hl; exact hl)
    | none =>
      rw [hv] at hl
      cases hc : (v.base.getCoin o').1 with
      | none => exact .inl (by rw [hc] at hl; exact hl)
      | some c => exact .inr ⟨rfl, c, rfl, by rw [hc] at hl; exact hl⟩
  · rw [if_neg ho] at hl
    exact .inl hl

end CCoinsViewCache

/-! ### Questions to the views below -/

namespace CCoinsView

open CCoinsViewCache

theorem sameCoins_getCoin (o : COutPoint) (b : CCoinsView) : (b.getCoin o).2.SameCoins b := by
  induction b with
  | db d => exact .refl _
  | cache c base ih => exact (readMore_fetchCoin (v := ⟨c, base⟩) ih).sameCoins

theorem sameCoins_getSaplingAnchorAt (E : Env) (rt : Uint256) (b : CCoinsView) :
    (b.getSaplingAnchorAt E rt).2.SameCoins b := by
  induction b with
  | db d =>
    unfold getSaplingAnchorAt
    split <;> exact .refl _
  | cache c base ih =>
    exact (ReadMore.of_passes (v := ⟨c, base⟩) (passes_fetchAnchor rt _) ih).sameCoins

theorem sameCoins_getNullifier (nf : Uint256) (b : CCoinsView) :
    (b.getNullifier nf).2.SameCoins b := by
  induction b with
  | db d => exact .refl _
  | cache c base ih =>
    exact (ReadMore.of_passes (v := ⟨c, base⟩) (passes_fetchNullifier nf _) ih).sameCoins

theorem sameCoins_getBestBlock (b : CCoinsView) : b.getBestBlock.2.SameCoins b := by
  induction b with
  | db d => exact .refl _
  | cache c base ih =>
    exact (ReadMore.of_passes (v := ⟨c, base⟩) (passes_fetchBestBlock _) ih).sameCoins

theorem sameCoins_getBestAnchor (E : Env) (b : CCoinsView) : (b.getBestAnchor E).2.SameCoins b := by
  induction b with
  | db d => exact .refl _
  | cache c base ih =>
    exact (ReadMore.of_passes (v := ⟨c, base⟩) (passes_fetchBestAnchor _) ih).sameCoins

end CCoinsView

/-! ## The operations of caches in step -/

namespace CCoinsViewCache

/-- Reading a coin on one side only. -/
theorem ReadMore.fetchCoin_left (h : ReadMore v w) (o : COutPoint) : ReadMore (v.fetchCoin o).2 w :=
  (readMore_fetchCoin (sameCoins_getCoin o v.base)).trans h

/-- Reading a coin on both sides gives the same entry. -/
theorem ReadMore.fetchCoin (h : ReadMore v w) (o : COutPoint) :
    (v.fetchCoin o).1 = (w.fetchCoin o).1 ∧ ReadMore (v.fetchCoin o).2 (w.fetchCoin o).2 := by
  have hfst : (v.fetchCoin o).1 = (w.fetchCoin o).1 := by
    simp only [CCoinsViewCache.fetchCoin, fetchCoin_fst]
    rcases h.entry o with heq | ⟨hw, c, hc, hv⟩
    · rw [heq, h.base o]
    · rw [hw, hv, hc]
      rfl
  have hv' := sameCoins_fetchCoin (sameCoins_getCoin o v.base)
  have hw' := sameCoins_fetchCoin (sameCoins_getCoin o w.base)
  refine ⟨hfst, hv'.trans (h.base.trans hw'.symm), fun o' => ?_⟩
  have hlv := fetchCoin_lookup v.cache v.base o o' (v.base.getCoin o)
  have hlw := fetchCoin_lookup w.cache w.base o o' (w.base.getCoin o)
  by_cases ho : o' = o
  · rw [if_pos ho] at hlv hlw
    exact .inl (hlv.trans (hfst.trans hlw.symm))
  · rw [if_neg ho] at hlv hlw
    rcases h.entry o' with heq | ⟨hw, c, hc, hv⟩
    · exact .inl (hlv.trans (heq.trans hlw.symm))
    · exact .inr ⟨hlw.trans hw, c, (hw' o').trans hc, hlv.trans hv⟩

theorem accessCoin_eq (o : COutPoint) :
    v.accessCoin o = (((v.fetchCoin o).1.map (·.coin)).getD .empty, (v.fetchCoin o).2) := by
  unfold accessCoin
  cases h : (v.fetchCoin o).1 <;> simp [h]

theorem haveCoin_snd (o : COutPoint) : (v.haveCoin o).2 = (v.fetchCoin o).2 := by
  unfold haveCoin
  cases h : (v.fetchCoin o).1 <;> simp [h]

/-- Spending a coin on both sides moves out the same coin. -/
theorem ReadMore.spendCoin (h : ReadMore v w) (o : COutPoint) :
    (v.spendCoin o).1 = (w.spendCoin o).1 ∧ ReadMore (v.spendCoin o).2 (w.spendCoin o).2 := by
  obtain ⟨hfst, hread⟩ := h.fetchCoin o
  unfold CCoinsViewCache.spendCoin
  cases hw : (w.fetchCoin o).1 with
  | none =>
    simp only [hfst, hw, true_and]
    exact hread
  | some e =>
    simp only [hfst, hw]
    cases e.fresh with
    | true => exact ⟨rfl, hread.eraseCoin o⟩
    | false => exact ⟨rfl, hread.putCoin o _⟩

/-- **Adding a coin** that must not overwrite: what the cache that has read more accepts,
the other does too. -/
theorem ReadMore.addCoin (h : ReadMore v w) {o : COutPoint} {c : Coin} {v' : CCoinsViewCache}
    (hv' : v.addCoin o c false = .ok v') : ∃ w', w.addCoin o c false = .ok w' ∧ ReadMore v' w' := by
  unfold CCoinsViewCache.addCoin at hv' ⊢
  obtain ⟨hspent, hv'⟩ := Except.guard_eq_ok.mp hv'
  rw [if_neg hspent]
  by_cases huns : CScript.isUnspendable c.out.scriptPubKey = true
  · rw [if_pos huns] at hv' ⊢
    cases hv'
    exact ⟨w, rfl, h⟩
  rw [if_neg huns] at hv' ⊢
  obtain ⟨hfree, hv'⟩ := Except.guard_eq_ok.mp hv'
  cases hv'
  rcases h.entry o with heq | ⟨hw, c', -, hv⟩
  · rw [heq] at hfree ⊢
    rw [if_neg hfree]
    exact ⟨_, rfl, h.putCoin o _⟩
  · -- what was read there is spent, so that both entries become fresh
    rw [hv] at hfree ⊢
    rw [hw]
    refine ⟨_, if_neg (by simp), ?_⟩
    simpa [entryOf] using h.putCoin o ⟨c, true, true⟩

end CCoinsViewCache

open CCoinsViewCache

/-! ## The functions over the operations -/

/-- Reading a cache is having read more. -/
theorem ReadMore.skipsReads (E : Env) : SkipsReads E ReadMore where
  accessCoin o := by
    refine Skips.of_fun fun v w h => ?_
    rw [accessCoin_eq]
    exact h.fetchCoin_left o
  haveCoin o := by
    refine Skips.of_fun fun v w h => ?_
    rw [haveCoin_snd]
    exact h.fetchCoin_left o
  getNullifier nf := by
    refine Skips.of_fun fun v w h => ?_
    refine (ReadMore.of_passes (passes_fetchNullifier nf _) ?_).trans h
    exact sameCoins_getNullifier nf v.base
  getSaplingAnchorAt rt := by
    refine Skips.of_fun fun v w h => ?_
    refine (ReadMore.of_passes (passes_fetchAnchor rt _) ?_).trans h
    exact sameCoins_getSaplingAnchorAt E rt v.base
  getBestAnchor := by
    refine Skips.of_fun fun v w h => ?_
    refine (ReadMore.of_passes (passes_fetchBestAnchor _) ?_).trans h
    exact sameCoins_getBestAnchor E v.base
  getBestBlock := by
    refine Skips.of_fun fun v w h => ?_
    refine (ReadMore.of_passes (passes_fetchBestBlock _) ?_).trans h
    exact sameCoins_getBestBlock v.base

section Follows

theorem follows_accessCoin (o : COutPoint) :
    Follows ReadMore (accessCoin o : Stateful Failure CCoinsViewCache Coin) (accessCoin o) := by
  refine of_fun fun v w h => ?_
  obtain ⟨hfst, hread⟩ := h.fetchCoin o
  rw [accessCoin_eq, accessCoin_eq, hfst]
  exact ⟨rfl, hread⟩

theorem follows_spendCoin (o : COutPoint) :
    Follows ReadMore (spendCoin o : Stateful Failure CCoinsViewCache Coin) (spendCoin o) :=
  of_fun fun _ _ h => h.spendCoin o

theorem follows_addCoin (o : COutPoint) (c : Coin) :
    Follows ReadMore (addCoin o c false : Stateful Failure CCoinsViewCache Unit)
      (addCoin o c false) := by
  rintro v w ⟨⟩ v' h hv
  change (v.addCoin o c false).map _ = _ at hv
  cases hadd : v.addCoin o c false with
  | error e => rw [hadd] at hv; cases hv
  | ok v'' =>
    rw [hadd] at hv
    cases hv
    obtain ⟨w', hw', hread⟩ := h.addCoin hadd
    refine ⟨w', ?_, hread⟩
    change (w.addCoin o c false).map _ = _
    rw [hw']
    rfl

theorem follows_setNullifier (nf : Uint256) (spent : Bool) :
    Follows ReadMore (setNullifier nf spent : Stateful Failure CCoinsViewCache Unit)
      (setNullifier nf spent) :=
  of_fun fun _ _ h => ⟨rfl, h.congr rfl rfl⟩

variable (tx : CTransaction)

theorem follows_getValueIn :
    Follows ReadMore (getValueIn tx : Stateful Failure CCoinsViewCache ℤ) (getValueIn tx) := by
  refine ite (fun _ => pure 0) fun _ =>
    bind (fold (fun n txin _ => ?_) 0) ?_
  · exact (follows_accessCoin txin.prevout).bind fun coin => pure _
  · intro nResult
    exact (Follows.ofResult _).bind fun shielded => Follows.pure _

theorem follows_updateCoins (H : Hashing) (nHeight : ℤ) :
    Follows ReadMore (updateCoins H tx nHeight : Stateful Failure CCoinsViewCache (List Coin))
      (updateCoins H tx nHeight) := by
  refine bind (ite (fun _ => pure []) fun _ => ?_) fun vprevout => ?_
  · exact collect fun txin _ => follows_spendCoin txin.prevout
  refine (forEach fun spend _ => follows_setNullifier spend.nullifier true).bind fun _ => ?_
  refine (Follows.forEach fun p _ => ?_).bind fun _ => Follows.pure vprevout
  exact follows_addCoin p.1 (tx.coin nHeight p.2)

end Follows

end Passion
