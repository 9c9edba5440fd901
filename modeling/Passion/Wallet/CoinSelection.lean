import Passion.Common.MachineNumber
import Passion.Common.Masks
import Passion.Common.Runs
import Passion.Primitives.Transaction

/-!
# Coin selection

`SelectCoinsMinConf` of `wallet/wallet.cpp` chooses coins that are worth a target. Coins with fewer
confirmations than required are passed over; a coin of exactly the target is taken at once; the
coins below `target + CENT` are searched by `ApproximateBestSubset`, at random and in two passes;
and of the other coins the smallest is kept to stand in for the subset.

Amounts are `int64_t`: sums wrap around.
-/

namespace Passion

open List MachineNumber Mask

/-- `CENT`. -/
def CENT : ℤ := 1000000

/-- The largest value of `CAmount`. -/
def MAX_CAMOUNT : ℤ := 2 ^ 63 - 1

/-- An output of a transaction of the wallet, as the sets of coins have it: the pointer to the
transaction and the index stand for its outpoint and give the output. -/
structure WalletCoin where
  outPoint : COutPoint
  txout : CTxOut
  deriving DecidableEq

/-- The value of a coin. -/
def WalletCoin.value (coin : WalletCoin) : ℤ := coin.txout.nValue

/-- `COutput`, with what coin selection reads of its transaction. -/
structure COutput where
  coin : WalletCoin
  nDepth : ℤ
  fSpendable : Bool
  /-- `tx->IsFromMe(ISMINE_ALL)`. -/
  isFromMe : Bool

/-- `CompareValueOnly`, from the largest value on. -/
def compareValueOnly (a b : WalletCoin) : Bool := decide (b.value ≤ a.value)

/-! ## The search for a subset -/

/-- The variables of the loops of `ApproximateBestSubset`. -/
structure SubsetSearch where
  vfIncluded : List Bool
  nTotal : ℤ
  fReachedTarget : Bool
  vfBest : List Bool
  nBest : ℤ

/-- A coin is included. If the target is reached, the subset is compared with the best one and
the coin is taken out again. -/
def SubsetSearch.tryCoin (nTargetValue n : ℤ) (i : ℕ) (s : SubsetSearch) : SubsetSearch :=
  let nTotal := toInt64 (s.nTotal + n)
  let vfIncluded := s.vfIncluded.set i true
  if nTotal ≥ nTargetValue then
    { vfIncluded := vfIncluded.set i false
      nTotal := toInt64 (nTotal - n)
      fReachedTarget := true
      vfBest := if nTotal < s.nBest then vfIncluded else s.vfBest
      nBest := if nTotal < s.nBest then nTotal else s.nBest }
  else { s with vfIncluded := vfIncluded, nTotal := nTotal }

/-- One pass over the coins from index `i` on. -/
def SubsetSearch.pass (nTargetValue : ℤ) (wanted : ℕ → SubsetSearch → Bool) :
    List WalletCoin → ℕ → SubsetSearch → SubsetSearch
  | [], _, s => s
  | coin :: vValue, i, s =>
    pass nTargetValue wanted vValue (i + 1)
      (if wanted i s then s.tryCoin nTargetValue coin.value i else s)

/-- One repetition: coins at random, and if they do not reach the target, the others as well. -/
def SubsetSearch.repetition (vValue : List WalletCoin) (nTargetValue : ℤ) (randbool : ℕ → Bool)
    (best : List Bool × ℤ) : List Bool × ℤ :=
  let s : SubsetSearch := ⟨List.replicate vValue.length false, 0, false, best.1, best.2⟩
  let s := pass nTargetValue (fun i _ => randbool i) vValue 0 s
  let s := if s.fReachedTarget then s
    else pass nTargetValue (fun i s => !s.vfIncluded.getD i false) vValue 0 s
  (s.vfBest, s.nBest)

/-- `ApproximateBestSubset`: the mask `vfBest` and the total `nBest`. The bits of the random
context are numbered by the repetition and the coin. -/
def approximateBestSubset (vValue : List WalletCoin) (nTotalLower nTargetValue : ℤ)
    (randbool : ℕ → ℕ → Bool) (iterations : ℕ) : List Bool × ℤ :=
  (List.range iterations).foldl
    (fun best nRep => if best.2 ≠ nTargetValue then
      SubsetSearch.repetition vValue nTargetValue (randbool nRep) best else best)
    (List.replicate vValue.length true, nTotalLower)

/-! ## The selection -/

/-- The random choices of `SelectCoinsMinConf`. -/
structure SelectionChoices where
  /-- `random_shuffle`. -/
  shuffle : List COutput → List COutput
  shuffle_perm : ∀ vCoins, (shuffle vCoins).Perm vCoins
  /-- The bits of the two searches. -/
  randbool : ℕ → ℕ → Bool
  randbool' : ℕ → ℕ → Bool

/-- The variables of the loop of `SelectCoinsMinConf`. -/
structure CoinClasses where
  coinLowestLarger : ℤ × Option WalletCoin
  vValue : List WalletCoin
  nTotalLower : ℤ

/-- A call that selects coins: what it returns, `setCoinsRet` and `nValueRet`. -/
structure CoinsRet where
  ret : Bool
  setCoinsRet : List WalletCoin
  nValueRet : ℤ

section

variable (nTargetValue nConfMine nConfTheirs : ℤ)

/-- The coin is spendable and has the confirmations it needs. -/
def COutput.isEligible (output : COutput) : Bool :=
  output.fSpendable &&
    !decide (output.nDepth < if output.isFromMe then nConfMine else nConfTheirs)

/-- The body of the loop: the coin that is returned at once is an error. -/
def CoinClasses.add (c : CoinClasses) (output : COutput) : Except WalletCoin CoinClasses :=
  let coin := output.coin
  let n := coin.value
  if !output.fSpendable then .ok c
  else if output.nDepth < if output.isFromMe then nConfMine else nConfTheirs then .ok c
  else if n = nTargetValue then .error coin
  else if n < toInt64 (nTargetValue + CENT) then
    .ok { c with vValue := c.vValue ++ [coin], nTotalLower := toInt64 (c.nTotalLower + n) }
  else if n < c.coinLowestLarger.1 then .ok { c with coinLowestLarger := (n, some coin) }
  else .ok c

/-- The coins go into the set one after the other, and their values into the total. -/
def insertCoins (coins : List WalletCoin) : CoinsRet :=
  ⟨true, coins.foldl (fun set coin => if coin ∈ set then set else set ++ [coin]) [],
    coins.foldl (fun total coin => toInt64 (total + coin.value)) 0⟩

/-- What `SelectCoinsMinConf` does with the classes of the coins. -/
def CoinClasses.select (c : CoinClasses) (choices : SelectionChoices) : CoinsRet :=
  if c.nTotalLower = nTargetValue then insertCoins c.vValue
  else if c.nTotalLower < nTargetValue then
    match c.coinLowestLarger.2 with
    | none => ⟨false, [], 0⟩
    | some coin => insertCoins [coin]
  else
    let vValue := c.vValue.mergeSort compareValueOnly
    let best := approximateBestSubset vValue c.nTotalLower nTargetValue choices.randbool 1000
    let best :=
      if best.2 ≠ nTargetValue ∧ c.nTotalLower ≥ toInt64 (nTargetValue + CENT) then
        approximateBestSubset vValue c.nTotalLower (toInt64 (nTargetValue + CENT))
          choices.randbool' 1000
      else best
    match c.coinLowestLarger.2 with
    | some coin =>
      if best.2 ≠ nTargetValue ∧ best.2 < toInt64 (nTargetValue + CENT) ∨
          c.coinLowestLarger.1 ≤ best.2 then insertCoins [coin]
      else insertCoins (Mask.picked vValue best.1)
    | none => insertCoins (Mask.picked vValue best.1)

/-- `SelectCoinsMinConf`. -/
def selectCoinsMinConf (vCoins : List COutput) (choices : SelectionChoices) : CoinsRet :=
  match (choices.shuffle vCoins).foldlM (CoinClasses.add nTargetValue nConfMine nConfTheirs)
      ⟨(MAX_CAMOUNT, none), [], 0⟩ with
  | .error coin => insertCoins [coin]
  | .ok c => c.select nTargetValue choices

end

/-! ## What the search finds -/

/-- The total value of coins. -/
def totalValue (coins : List WalletCoin) : ℤ := (coins.map WalletCoin.value).sum

/-- **Coins whose values can be added up**: none is negative, and the sum does not overflow. -/
structure Addable (coins : List WalletCoin) : Prop where
  nonneg : ∀ coin ∈ coins, 0 ≤ coin.value
  total : totalValue coins < 2 ^ 63

namespace Addable

variable {coins coins' : List WalletCoin}

variable (h : Addable coins)

include h

theorem totalValue_le (hsub : coins'.Subperm coins) : totalValue coins' ≤ totalValue coins := by
  obtain ⟨l, hperm, hsub⟩ := hsub
  rw [totalValue, ← (hperm.map _).sum_eq]
  refine Sublist.sum_le_sum (hsub.map _) fun n hn => ?_
  obtain ⟨coin, hcoin, rfl⟩ := mem_map.mp hn
  exact h.nonneg coin hcoin

theorem sublist (hsub : coins'.Sublist coins) : Addable coins' where
  nonneg coin hcoin := h.nonneg coin (hsub.subset hcoin)
  total := lt_of_le_of_lt (h.totalValue_le hsub.subperm) h.total

theorem perm (hperm : coins'.Perm coins) : Addable coins' where
  nonneg coin hcoin := h.nonneg coin (hperm.subset hcoin)
  total := by
    rw [totalValue, (hperm.map _).sum_eq]
    exact h.total

theorem totalValue_nonneg : 0 ≤ totalValue coins := by
  refine sum_nonneg fun n hn => ?_
  obtain ⟨coin, hcoin, rfl⟩ := mem_map.mp hn
  exact h.nonneg coin hcoin

theorem toInt64_weight (mask : List Bool) :
    toInt64 (weight WalletCoin.value coins mask) = weight WalletCoin.value coins mask := by
  have hlo := weight_nonneg h.nonneg mask
  have hhi := lt_of_le_of_lt (weight_le_sum h.nonneg mask) h.total
  exact toInt64_of_range (by omega) hhi

end Addable

namespace SubsetSearch

/-- **The search adds up**: the totals are those of the masks, and the best subset is worth the
target. -/
structure Sound (vValue : List WalletCoin) (nTargetValue : ℤ) (s : SubsetSearch) : Prop where
  included_length : s.vfIncluded.length = vValue.length
  total : s.nTotal = Mask.weight WalletCoin.value vValue s.vfIncluded
  best : s.nBest = Mask.weight WalletCoin.value vValue s.vfBest
  reached : nTargetValue ≤ s.nBest

variable {vValue : List WalletCoin} {nTargetValue : ℤ} {s : SubsetSearch} {i : ℕ}
variable {coin : WalletCoin}

theorem set_true_set_false (h : s.vfIncluded[i]? = some false) :
    (s.vfIncluded.set i true).set i false = s.vfIncluded := by
  obtain ⟨hi, hget⟩ := List.getElem?_eq_some_iff.mp h
  rw [set_set, ← hget, set_getElem_self]

/-- **One coin is tried.** -/
theorem Sound.tryCoin (h : s.Sound vValue nTargetValue) (hadd : Addable vValue)
    (hcoin : vValue[i]? = some coin) (hnot : s.vfIncluded[i]? = some false) :
    (s.tryCoin nTargetValue coin.value i).Sound vValue nTargetValue := by
  have hset := weight_set_true (f := WalletCoin.value) hcoin hnot
  have htotal : toInt64 (s.nTotal + coin.value) =
      weight WalletCoin.value vValue (s.vfIncluded.set i true) := by
    rw [h.total, ← hset, hadd.toInt64_weight]
  unfold SubsetSearch.tryCoin
  simp only [htotal]
  split
  · next hge =>
    have hback : toInt64 (weight WalletCoin.value vValue (s.vfIncluded.set i true) -
        coin.value) = s.nTotal := by
      rw [hset, add_sub_cancel_right, hadd.toInt64_weight, h.total]
    refine ⟨by simpa using h.included_length, ?_, ?_, ?_⟩
    · simp [set_true_set_false hnot, hback, h.total]
    · simp [apply_ite (weight WalletCoin.value vValue), h.best]
    · split
      · exact hge
      · exact h.reached
  · exact ⟨by simpa using h.included_length, rfl, h.best, h.reached⟩

/-- The flags of the other coins stay. -/
theorem tryCoin_included {n : ℤ} {j : ℕ} (hj : j ≠ i) :
    (s.tryCoin nTargetValue n i).vfIncluded[j]? = s.vfIncluded[j]? := by
  unfold tryCoin
  dsimp only
  split
  · rw [getElem?_set_ne hj.symm, getElem?_set_ne hj.symm]
  · exact getElem?_set_ne hj.symm

/-- **One pass**: it tries coins that are not included. `P` is what is known of the flags from
index `i` on. -/
theorem Sound.pass (wanted : ℕ → SubsetSearch → Bool) (P : ℕ → SubsetSearch → Prop)
    (hadd : Addable vValue)
    (hwanted : ∀ i s, i < vValue.length → s.Sound vValue nTargetValue → P i s → wanted i s = true →
      s.vfIncluded[i]? = some false)
    (hP : ∀ i s, P i s → P (i + 1) s)
    (hP' : ∀ i s n, P i s → P (i + 1) (s.tryCoin nTargetValue n i))
    (h : s.Sound vValue nTargetValue) {rest : List WalletCoin} (hrest : vValue.drop i = rest)
    (hs : P i s) : (SubsetSearch.pass nTargetValue wanted rest i s).Sound vValue nTargetValue := by
  induction rest generalizing i s with
  | nil => exact h
  | cons coin rest ih =>
    have hcoin : vValue[i]? = some coin := by
      rw [← head?_drop, hrest]
      rfl
    have hi : i < vValue.length := (List.getElem?_eq_some_iff.mp hcoin).1
    have hnext : vValue.drop (i + 1) = rest := by
      rw [← tail_drop, hrest]
      rfl
    rw [pass]
    split
    · next hwant =>
      exact ih (h.tryCoin hadd hcoin (hwanted i s hi h hs hwant)) hnext (hP' i s _ hs)
    · exact ih h hnext (hP i s hs)

/-- A subset is worth the target, and its total is that of the mask. -/
def Reaches (vValue : List WalletCoin) (nTargetValue : ℤ) (best : List Bool × ℤ) : Prop :=
  best.2 = Mask.weight WalletCoin.value vValue best.1 ∧ nTargetValue ≤ best.2

/-- **One repetition** keeps the best subset sound. -/
theorem repetition_reaches {randbool : ℕ → Bool} {best : List Bool × ℤ} (hadd : Addable vValue)
    (hbest : Reaches vValue nTargetValue best) :
    Reaches vValue nTargetValue (repetition vValue nTargetValue randbool best) := by
  have hstart : Sound vValue nTargetValue
      ⟨replicate vValue.length false, 0, false, best.1, best.2⟩ :=
    ⟨by simp, by simp [weight, picked_replicate_false], hbest.1, hbest.2⟩
  -- in the first pass no coin from the current one on is included
  have hfirst := Sound.pass (fun i _ => randbool i)
    (fun i s => ∀ j, i ≤ j → j < vValue.length → s.vfIncluded[j]? = some false) hadd
    (fun i s hi _ hs _ => hs i le_rfl hi) (fun i s hs j hj => hs j (by omega))
    (fun i s n hs j hj hlt => by
      rw [tryCoin_included (by omega)]
      exact hs j (by omega) hlt) hstart drop_zero (fun j _ hj => by simp [hj])
  simp only [repetition]
  split
  · exact ⟨hfirst.best, hfirst.reached⟩
  · -- in the second pass only coins that are not included are tried
    have hsecond := Sound.pass (fun i s => !s.vfIncluded.getD i false) (fun _ _ => True) hadd
      (fun i s hi hs _ hw => by
        have hi : i < s.vfIncluded.length := by rw [hs.included_length]; exact hi
        simpa [hi] using hw)
      (fun _ _ _ => trivial) (fun _ _ _ _ => trivial) hfirst drop_zero trivial
    exact ⟨hsecond.best, hsecond.reached⟩

end SubsetSearch

/-- **The best subset**: its total is that of the mask, and not below the target. -/
theorem approximateBestSubset_reaches {vValue : List WalletCoin} {nTargetValue : ℤ}
    (hadd : Addable vValue) (hreached : nTargetValue ≤ totalValue vValue)
    (randbool : ℕ → ℕ → Bool) (iterations : ℕ) : SubsetSearch.Reaches vValue nTargetValue
      (approximateBestSubset vValue (totalValue vValue) nTargetValue randbool iterations) := by
  refine foldlRecOn _ _ ⟨?_, hreached⟩ fun best hbest nRep _ => ?_
  · rw [weight, picked_replicate_true]
    rfl
  · split
    · exact SubsetSearch.repetition_reaches hadd hbest
    · exact hbest

/-! ## What is returned -/

/-- Distinct coins are all in the set, and their values are added up. -/
theorem insertCoins_eq {coins : List WalletCoin} (hadd : Addable coins) (hnd : coins.Nodup) :
    insertCoins coins = ⟨true, coins, totalValue coins⟩ := by
  have hset : ∀ done rest : List WalletCoin, (done ++ rest).Nodup →
      rest.foldl (fun set coin => if coin ∈ set then set else set ++ [coin]) done = done ++ rest := by
    intro done rest
    induction rest generalizing done with
    | nil => simp
    | cons coin rest ih =>
      intro hnd
      have hnot : coin ∉ done := fun hmem =>
        (nodup_append.mp hnd).2.2 coin hmem coin (by simp) rfl
      rw [foldl_cons, if_neg hnot, ih (done ++ [coin]) (by simpa using hnd)]
      simp
  have hsum : ∀ (rest : List WalletCoin) (total : ℤ), 0 ≤ total → Addable rest →
      total + totalValue rest < 2 ^ 63 →
      rest.foldl (fun total coin => toInt64 (total + coin.value)) total = total + totalValue rest := by
    intro rest
    induction rest with
    | nil => simp [totalValue]
    | cons coin rest ih =>
      intro total hlo hrest hhi
      have htail := hrest.sublist (sublist_cons_self coin rest)
      have hcoin := hrest.nonneg coin (by simp)
      have hsum := htail.totalValue_nonneg
      have hcons : totalValue (coin :: rest) = coin.value + totalValue rest := rfl
      rw [foldl_cons, toInt64_of_range (by omega) (by omega), ih _ (by omega) htail (by omega),
        hcons]
      ring
  unfold insertCoins
  rw [hset [] coins (by simpa using hnd), hsum coins 0 le_rfl hadd (by simpa using hadd.total)]
  simp

/-! ## The classes -/

/-- The coins that are spendable and have the confirmations they need. -/
def eligibleCoins (nConfMine nConfTheirs : ℤ) (vCoins : List COutput) : List WalletCoin :=
  (vCoins.filter (COutput.isEligible nConfMine nConfTheirs)).map COutput.coin

section

variable {nTargetValue nConfMine nConfTheirs : ℤ}

theorem eligibleCoins_concat (done : List COutput) (output : COutput) :
    eligibleCoins nConfMine nConfTheirs (done ++ [output]) =
      eligibleCoins nConfMine nConfTheirs done ++
        if output.isEligible nConfMine nConfTheirs then [output.coin] else [] := by
  unfold eligibleCoins
  split_ifs with h <;> simp [h]

/-- **The classes of the coins seen so far**: those below `target + CENT` with their total, and
of the others one, if there is any. -/
structure CoinClasses.Of (nTargetValue : ℤ) (coins : List WalletCoin) (c : CoinClasses) : Prop where
  vValue : c.vValue = coins.filter fun coin => decide (coin.value < nTargetValue + CENT)
  total : c.nTotalLower = totalValue c.vValue
  noLarger : c.coinLowestLarger.2 = none → c.coinLowestLarger.1 = MAX_CAMOUNT ∧
    ∀ coin ∈ coins, coin.value < nTargetValue + CENT
  larger : ∀ coin, c.coinLowestLarger.2 = some coin → coin ∈ coins ∧ nTargetValue + CENT ≤ coin.value

/-- The values are below the one that marks that no larger coin was found. -/
def BelowMax (coins : List WalletCoin) : Prop := ∀ coin ∈ coins, coin.value < MAX_CAMOUNT

theorem totalValue_concat (coins : List WalletCoin) (coin : WalletCoin) :
    totalValue (coins ++ [coin]) = totalValue coins + coin.value := by
  simp [totalValue]

variable {c : CoinClasses} {output : COutput}

theorem CoinClasses.add_of_not_eligible (h : output.isEligible nConfMine nConfTheirs = false) :
    c.add nTargetValue nConfMine nConfTheirs output = .ok c := by
  unfold CoinClasses.add
  by_cases hspend : output.fSpendable = true
  · simp_all [COutput.isEligible]
  · simp [hspend]

theorem CoinClasses.add_of_eligible (h : output.isEligible nConfMine nConfTheirs = true) :
    c.add nTargetValue nConfMine nConfTheirs output =
      if output.coin.value = nTargetValue then .error output.coin
      else if output.coin.value < toInt64 (nTargetValue + CENT) then
        .ok { c with vValue := c.vValue ++ [output.coin]
                     nTotalLower := toInt64 (c.nTotalLower + output.coin.value) }
      else if output.coin.value < c.coinLowestLarger.1 then
        .ok { c with coinLowestLarger := (output.coin.value, some output.coin) }
      else .ok c := by
  simp only [COutput.isEligible, Bool.and_eq_true, Bool.not_eq_true', decide_eq_false_iff_not] at h
  simp [CoinClasses.add, h.1, if_neg h.2]

variable (hcent : toInt64 (nTargetValue + CENT) = nTargetValue + CENT)

include hcent in
/-- **One eligible coin is classed.** -/
theorem CoinClasses.Of.add {coins : List WalletCoin} (h : c.Of nTargetValue coins)
    (hadd : Addable (coins ++ [output.coin])) (hmax : output.coin.value < MAX_CAMOUNT)
    (helig : output.isEligible nConfMine nConfTheirs = true) :
    (c.add nTargetValue nConfMine nConfTheirs output).Meets
      (fun coin => coin = output.coin ∧ coin.value = nTargetValue)
      (Of nTargetValue (coins ++ [output.coin])) := by
  rw [add_of_eligible helig, hcent]
  split
  · next heq => exact ⟨rfl, heq⟩
  · split
    · next hlow =>
      have hfilter : (coins ++ [output.coin]).filter
          (fun coin => decide (coin.value < nTargetValue + CENT)) = c.vValue ++ [output.coin] := by
        simp [h.vValue, hlow]
      have hlower : Addable (c.vValue ++ [output.coin]) :=
        hadd.sublist (hfilter ▸ filter_sublist)
      have hsum : toInt64 (c.nTotalLower + output.coin.value) =
          totalValue (c.vValue ++ [output.coin]) := by
        rw [h.total, ← totalValue_concat]
        exact toInt64_of_range (by have := hlower.totalValue_nonneg; omega) hlower.total
      refine ⟨hfilter.symm, hsum, fun hnone => ⟨(h.noLarger hnone).1, fun coin hcoin => ?_⟩,
        fun coin hcoin => ⟨by simp [(h.larger coin hcoin).1], (h.larger coin hcoin).2⟩⟩
      rcases mem_append.mp hcoin with hcoin | hcoin
      · exact (h.noLarger hnone).2 coin hcoin
      · rw [mem_singleton.mp hcoin]
        exact hlow
    · next hlow =>
      have hfilter : c.vValue = (coins ++ [output.coin]).filter
          fun coin => decide (coin.value < nTargetValue + CENT) := by
        simp [h.vValue, hlow]
      split
      · refine ⟨hfilter, h.total, fun hnone => (by cases hnone), fun coin hcoin => ?_⟩
        cases hcoin
        exact ⟨by simp, by omega⟩
      · next hlarger =>
        refine ⟨hfilter, h.total, fun hnone => ?_,
          fun coin hcoin => ⟨by simp [(h.larger coin hcoin).1], (h.larger coin hcoin).2⟩⟩
        -- the first larger coin is below the mark, and so it is kept
        rw [(h.noLarger hnone).1] at hlarger
        exact absurd hmax hlarger

theorem eligibleCoins_sublist (nConfMine nConfTheirs : ℤ) (vCoins : List COutput) :
    (eligibleCoins nConfMine nConfTheirs vCoins).Sublist (vCoins.map COutput.coin) :=
  Sublist.map _ filter_sublist

include hcent in
/-- **The loop over the coins**: it stops at an eligible coin of the target, or has classed all
eligible coins. -/
theorem classes_of (nConfMine nConfTheirs : ℤ) {vCoins : List COutput}
    (hadd : Addable (vCoins.map COutput.coin)) (hmax : BelowMax (vCoins.map COutput.coin)) :
    (vCoins.foldlM (CoinClasses.add nTargetValue nConfMine nConfTheirs)
      ⟨(MAX_CAMOUNT, none), [], 0⟩).Meets
      (fun coin => coin ∈ eligibleCoins nConfMine nConfTheirs vCoins ∧ coin.value = nTargetValue)
      (CoinClasses.Of nTargetValue (eligibleCoins nConfMine nConfTheirs vCoins)) := by
  refine Except.Meets.foldlM
    (fun done => CoinClasses.Of nTargetValue (eligibleCoins nConfMine nConfTheirs done))
    ⟨rfl, rfl, fun _ => ⟨rfl, by simp [eligibleCoins]⟩, fun coin h => by cases h⟩ ?_
  rintro done output c ⟨rest, rfl⟩ hc
  have hsub : (eligibleCoins nConfMine nConfTheirs done ++ [output.coin]).Sublist
      ((done ++ output :: rest).map COutput.coin) := by
    rw [map_append]
    exact (eligibleCoins_sublist _ _ done).append (by simp)
  rw [eligibleCoins_concat]
  cases helig : output.isEligible nConfMine nConfTheirs with
  | false =>
    rw [CoinClasses.add_of_not_eligible helig]
    show CoinClasses.Of _ _ _
    simpa using hc
  | true =>
    refine (hc.add hcent (hadd.sublist hsub) (hmax _ (by simp)) helig).weaken ?_
    rintro coin ⟨rfl, hvalue⟩
    exact ⟨mem_map_of_mem (mem_filter.mpr ⟨by simp, helig⟩), hvalue⟩

/-! ## Soundness and completeness -/

/-- **A selection of coins** that is worth the target. -/
structure CoinsRet.Selects (nTargetValue : ℤ) (coins : List WalletCoin) (r : CoinsRet) : Prop where
  ret : r.ret = true
  subperm : r.setCoinsRet.Subperm coins
  value : r.nValueRet = totalValue r.setCoinsRet
  reached : nTargetValue ≤ r.nValueRet

/-- **A selection, or a refusal** because the coins are not worth the target. -/
def CoinsRet.Settles (nTargetValue : ℤ) (coins : List WalletCoin) (r : CoinsRet) : Prop :=
  r.Selects nTargetValue coins ∨ r.ret = false ∧ totalValue coins < nTargetValue

variable {coins : List WalletCoin} {r : CoinsRet}

theorem CoinsRet.Settles.perm {coins' : List WalletCoin} (h : r.Settles nTargetValue coins')
    (hperm : coins'.Perm coins) : r.Settles nTargetValue coins := by
  rcases h with ⟨hret, hsub, hvalue, hreached⟩ | ⟨hret, hless⟩
  · exact .inl ⟨hret, hsub.trans hperm.subperm, hvalue, hreached⟩
  · rw [totalValue, (hperm.map _).sum_eq] at hless
    exact .inr ⟨hret, hless⟩

/-- A selection succeeds exactly if the coins are worth the target. -/
theorem CoinsRet.Settles.ret_iff (h : r.Settles nTargetValue coins) (hadd : Addable coins) :
    (r.ret = true ↔ nTargetValue ≤ totalValue coins) ∧
      (r.ret = true → r.Selects nTargetValue coins) := by
  rcases h with hsel | ⟨hret, hless⟩
  · have hle := hadd.totalValue_le hsel.subperm
    have hreached := hsel.value ▸ hsel.reached
    exact ⟨⟨fun _ => hreached.trans hle, fun _ => hsel.ret⟩, fun _ => hsel⟩
  · simp [hret, hless]

theorem insertCoins_selects {picked : List WalletCoin} (hadd : Addable coins) (hnd : coins.Nodup)
    (hsub : picked.Sublist coins) (hreached : nTargetValue ≤ totalValue picked) :
    (insertCoins picked).Selects nTargetValue coins := by
  rw [insertCoins_eq (hadd.sublist hsub) (hsub.nodup hnd)]
  exact ⟨rfl, hsub.subperm, rfl, hreached⟩

/-- One coin that is worth the target. -/
theorem insertCoin_selects {coin : WalletCoin} (hadd : Addable coins) (hnd : coins.Nodup)
    (h : coin ∈ coins) (hreached : nTargetValue ≤ coin.value) :
    (insertCoins [coin]).Selects nTargetValue coins :=
  insertCoins_selects hadd hnd (singleton_sublist.mpr h) (by simpa [totalValue] using hreached)

/-- The subset that a search finds. -/
theorem insertBest_selects {vValue : List WalletCoin} (hadd : Addable vValue) (hnd : vValue.Nodup)
    (target : ℤ) (htarget : nTargetValue ≤ target) (hreach : target ≤ totalValue vValue)
    (randbool : ℕ → ℕ → Bool) :
    (insertCoins (picked vValue (approximateBestSubset vValue (totalValue vValue) target
      randbool 1000).1)).Selects nTargetValue vValue := by
  obtain ⟨hbest, hreached⟩ := approximateBestSubset_reaches hadd hreach randbool 1000
  exact insertCoins_selects hadd hnd (picked_sublist _ _) (htarget.trans (hreached.trans hbest.le))

theorem CoinsRet.Selects.subperm_trans {lower : List WalletCoin} (h : r.Selects nTargetValue lower)
    (hsub : lower.Subperm coins) : r.Selects nTargetValue coins :=
  ⟨h.ret, h.subperm.trans hsub, h.value, h.reached⟩

include hcent in
/-- **What is selected from the classes.** -/
theorem CoinClasses.Of.select (h : c.Of nTargetValue coins) (hadd : Addable coins)
    (hnd : coins.Nodup) (choices : SelectionChoices) :
    (c.select nTargetValue choices).Settles nTargetValue coins := by
  have hle : nTargetValue ≤ nTargetValue + CENT := by simp [CENT]
  have hsub : c.vValue.Sublist coins := h.vValue ▸ filter_sublist
  have hone : ∀ coin, c.coinLowestLarger.2 = some coin →
      (insertCoins [coin]).Selects nTargetValue coins := fun coin hcoin =>
    insertCoin_selects hadd hnd (h.larger coin hcoin).1 (hle.trans (h.larger coin hcoin).2)
  unfold CoinClasses.select
  simp only [hcent]
  split
  · next heq => exact .inl (insertCoins_selects hadd hnd hsub (h.total ▸ heq.ge))
  · split
    · next hless =>
      cases hlarger : c.coinLowestLarger.2 with
      | none =>
        -- then all coins are in the lower class
        have hall : c.vValue = coins := by
          rw [h.vValue]
          simpa using (h.noLarger hlarger).2
        rw [h.total, hall] at hless
        exact .inr ⟨rfl, hless⟩
      | some coin => exact .inl (hone coin hlarger)
    · next hnot =>
      have hperm := mergeSort_perm c.vValue compareValueOnly
      have htotal : c.nTotalLower = totalValue (c.vValue.mergeSort compareValueOnly) := by
        rw [h.total, totalValue, totalValue, (hperm.map _).sum_eq]
      have hbest := fun target (htarget : nTargetValue ≤ target) hreach randbool =>
        (insertBest_selects ((hadd.sublist hsub).perm hperm)
          (hperm.nodup_iff.mpr (hsub.nodup hnd)) target htarget hreach randbool).subperm_trans
            (hperm.subperm.trans hsub.subperm)
      rw [htotal] at hnot ⊢
      cases hlarger : c.coinLowestLarger.2 with
      | none =>
        dsimp only
        split
        · next hagain => exact .inl (hbest _ hle hagain.2 choices.randbool')
        · exact .inl (hbest _ le_rfl (not_lt.mp hnot) choices.randbool)
      | some coin =>
        split_ifs with hagain
        · exact .inl (hone coin hlarger)
        · exact .inl (hbest _ hle hagain.2 choices.randbool')
        · exact .inl (hone coin hlarger)
        · exact .inl (hbest _ le_rfl (not_lt.mp hnot) choices.randbool)

include hcent in
/-- **What `SelectCoinsMinConf` returns.** -/
theorem selectCoinsMinConf_settles {vCoins : List COutput}
    (hadd : Addable (vCoins.map COutput.coin)) (hmax : BelowMax (vCoins.map COutput.coin))
    (hnd : (vCoins.map COutput.coin).Nodup) (choices : SelectionChoices) :
    (selectCoinsMinConf nTargetValue nConfMine nConfTheirs vCoins choices).Settles nTargetValue
      (eligibleCoins nConfMine nConfTheirs vCoins) := by
  have hperm := choices.shuffle_perm vCoins
  have hmapped := hperm.map COutput.coin
  have helig : (eligibleCoins nConfMine nConfTheirs (choices.shuffle vCoins)).Perm
      (eligibleCoins nConfMine nConfTheirs vCoins) := (hperm.filter _).map _
  have hsub := eligibleCoins_sublist nConfMine nConfTheirs vCoins
  have haddE := (hadd.sublist hsub).perm helig
  have hndE := helig.nodup_iff.mpr (hsub.nodup hnd)
  have hloop := classes_of hcent nConfMine nConfTheirs (hadd.perm hmapped) fun coin hcoin =>
    hmax coin (hmapped.subset hcoin)
  refine CoinsRet.Settles.perm ?_ helig
  unfold selectCoinsMinConf
  split
  · next coin hstop =>
    obtain ⟨hmem, hvalue⟩ := hloop.of_error hstop
    exact .inl (insertCoin_selects haddE hndE hmem hvalue.ge)
  · next c hdone => exact (hloop.of_ok hdone).select hcent haddE hndE choices

end

/-- **Coin selection is sound and complete** for coins below the largest `CAmount` and a target
that leaves room for `CENT`: it succeeds exactly if the eligible coins are worth the target, and
then selects distinct eligible coins that are worth it. -/
theorem selectCoinsMinConf_sound_complete {nTargetValue nConfMine nConfTheirs : ℤ}
    {vCoins : List COutput} (hpos : 0 < nTargetValue) (hcent : nTargetValue + CENT ≤ MAX_CAMOUNT)
    (hnd : (vCoins.map fun output => output.coin.outPoint).Nodup)
    (hadd : Addable (vCoins.map COutput.coin)) (hmax : BelowMax (vCoins.map COutput.coin))
    (choices : SelectionChoices) :
    let r := selectCoinsMinConf nTargetValue nConfMine nConfTheirs vCoins choices
    let eligible := eligibleCoins nConfMine nConfTheirs vCoins
    (r.ret = true ↔ nTargetValue ≤ totalValue eligible) ∧
      (r.ret = true → (r.setCoinsRet.map WalletCoin.outPoint).Nodup ∧ r.setCoinsRet ⊆ eligible ∧
        r.nValueRet = totalValue r.setCoinsRet ∧ nTargetValue ≤ r.nValueRet) := by
  intro r eligible
  have hcent : toInt64 (nTargetValue + CENT) = nTargetValue + CENT := by
    unfold MAX_CAMOUNT at hcent
    exact toInt64_of_range (by unfold CENT; omega) (by omega)
  have hpoints : ((vCoins.map COutput.coin).map WalletCoin.outPoint).Nodup := by
    rwa [map_map]
  have hsub : eligible.Sublist (vCoins.map COutput.coin) := eligibleCoins_sublist _ _ vCoins
  have hsettles : r.Settles nTargetValue eligible :=
    selectCoinsMinConf_settles hcent hadd hmax hpoints.of_map choices
  obtain ⟨hiff, hsel⟩ := hsettles.ret_iff (hadd.sublist hsub)
  refine ⟨hiff, fun hret => ⟨?_, (hsel hret).subperm.subset, (hsel hret).value, (hsel hret).reached⟩⟩
  obtain ⟨l, hperm, hl⟩ := (hsel hret).subperm
  exact (hperm.map _).nodup_iff.mp (((hl.trans hsub).map _).nodup hpoints)

/-! ## A coin of the largest amount -/

namespace SelectionSample

/-- No shuffle, and no coin at random. -/
def choices : SelectionChoices := ⟨id, fun _ => .refl _, fun _ _ => false, fun _ _ => false⟩

/-- A spendable coin with a value and a number of confirmations. -/
def output (n : UInt32) (nValue nDepth : ℤ) : COutput :=
  ⟨⟨⟨BaseUint.zero, n⟩, ⟨nValue, []⟩⟩, nDepth, true, false⟩

end SelectionSample

open SelectionSample in
/-- Two coins with six confirmations and one with fewer. -/
theorem selectCoinsMinConf_sound_complete_pair :
    (selectCoinsMinConf 50 1 6 [output 0 20 6, output 1 40 7, output 2 50 1] choices).ret = true ∧
      50 ≤ totalValue (eligibleCoins 1 6 [output 0 20 6, output 1 40 7, output 2 50 1]) := by
  have hlarge : 50 ≤
      totalValue (eligibleCoins 1 6 [output 0 20 6, output 1 40 7, output 2 50 1]) := by decide
  refine ⟨(selectCoinsMinConf_sound_complete (by decide) (by decide) (by decide) ⟨?_, by decide⟩ ?_
    choices).1.mpr hlarge, hlarge⟩
  · decide
  · unfold BelowMax
    decide

open SelectionSample in
/-- **A coin of the largest amount is overlooked**, because the mark for no larger coin has its
value. -/
theorem not_selectCoinsMinConf_complete :
    ¬ ∀ (nTargetValue nConfMine nConfTheirs : ℤ) (vCoins : List COutput)
      (choices : SelectionChoices), 0 < nTargetValue →
      (vCoins.map fun output => output.coin.outPoint).Nodup →
      Addable (vCoins.map COutput.coin) →
      ((selectCoinsMinConf nTargetValue nConfMine nConfTheirs vCoins choices).ret = true ↔
        nTargetValue ≤ totalValue (eligibleCoins nConfMine nConfTheirs vCoins)) := by
  intro h
  have hiff := h 1 1 6 [output 0 MAX_CAMOUNT 6] choices (by decide) (by decide)
    ⟨by decide, by decide⟩
  exact absurd (hiff.mpr (by decide)) (by decide)

end Passion
