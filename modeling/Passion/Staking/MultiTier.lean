import Passion.Chain.BlockTree
import Passion.Coins.View
import Passion.Common.MachineNumber
import Passion.Common.OrderedMap

/-!
# Multi-tier staking

`CMultiTier` of `multitier.cpp` keeps a register of the outputs whose value is one of four tier
amounts. For every tier the parent of a block elects one of them, and the coinstake of the block
pays the elected script: `FillTransactionMultiTier` adds the payments and takes them from the
outputs of the stake, `CheckTransactionMultiTier` looks for them.

The payments are a parameter of both functions; `getMultiTierValue` is what the code pays. Left out:
the statistics, the locks and the log.
-/

namespace Passion

open MachineNumber

/-- `MULTI_TIER_LEVEL_COUNT`. -/
def MULTI_TIER_LEVEL_COUNT : ℕ := 4

/-- `MULTI_TIER_MIN_CONFIRMATION`. -/
def MULTI_TIER_MIN_CONFIRMATION : ℤ := 5

/-- `GetMultiTierLevelAmount`. -/
def getMultiTierLevelAmount : ℕ → ℤ
  | 1 => 5000 * COIN
  | 2 => 10000 * COIN
  | 3 => 20000 * COIN
  | 4 => 50000 * COIN
  | _ => 0

/-- `GetMultiTierValue`: 10.5, 15.5, 22 and 42 percent of the block value. The constants
`0.105`, `0.155`, `0.22` and `0.42` are `double`s. -/
def getMultiTierValue (blockValue : ℤ) : ℕ → ℤ
  | 1 => scaleTrunc 7566047373982433 56 blockValue
  | 2 => scaleTrunc 5584463537939415 55 blockValue
  | 3 => scaleTrunc 7926335344172073 55 blockValue
  | 4 => scaleTrunc 7566047373982433 54 blockValue
  | _ => 0

theorem getMultiTierValue_nonneg {blockValue : ℤ} (h : 0 ≤ blockValue) (level : ℕ) :
    0 ≤ getMultiTierValue blockValue level := by
  unfold getMultiTierValue
  split
  all_goals first | exact scaleTrunc_nonneg h | exact le_rfl

/-- `COutPoint::GetHash`. -/
def COutPoint.getHash (H : Hashing) (o : COutPoint) : Uint256 := H.hash o.serialize

/-- `CMultiTier`. -/
structure CMultiTier where
  mapMultiTierStaking : OrderedMap Uint256 COutPoint

/-- The levels of the tiers, in the order of the loops. -/
def multiTierLevels : List ℕ := List.range' 1 MULTI_TIER_LEVEL_COUNT

/-! ## The election -/

section
variable (H : Hashing) (mt : CMultiTier) (view : CCoinsView) (pindexPrev : CBlockIndex)

/-- The coin an outpoint of the register takes part with in the election of a tier. Reading
it changes no answer of the view (`CCoinsView.sameCoins_getCoin`). -/
def tierCoin (level : ℕ) (out : COutPoint) : Option Coin :=
  (view.getCoin out).1.filter fun k =>
    k.out.nValue == getMultiTierLevelAmount level &&
      decide (toInt32 (pindexPrev.nHeight - k.nHeight) > MULTI_TIER_MIN_CONFIRMATION)

/-- `SerializeHash(out.second.GetHash() ^ prevBlockHash)`. -/
def electionHash (out : COutPoint) : Uint256 :=
  H.hash (BaseUint.xor (out.getHash H) pindexPrev.hashBlock).toBytes

/-- What the loop over the register carries. -/
structure Election where
  hashLevel : Uint256
  destination : CScript

/-- The body of the loop over the register. -/
def electStep (level : ℕ) (e : Election) (out : Uint256 × COutPoint) : Election :=
  match tierCoin view pindexPrev level out.2 with
  | none => e
  | some k =>
    let hash := electionHash H pindexPrev out.2
    if e.hashLevel ≠ BaseUint.zero then
      if hash.lt e.hashLevel then ⟨hash, k.out.scriptPubKey⟩ else e
    else ⟨hash, k.out.scriptPubKey⟩

/-- The loop over the register. `destination` is what the variable holds before it. -/
def elect (level : ℕ) (destination : CScript) : Election :=
  mt.mapMultiTierStaking.entries.foldl (electStep H view pindexPrev level)
    ⟨BaseUint.zero, destination⟩

/-- The script the parent of a block elects for a tier. -/
def tierWinner (level : ℕ) : Option CScript :=
  let e := elect H mt view pindexPrev level []
  if e.hashLevel.gt BaseUint.zero then some e.destination else none

end

/-! ## Paying -/

/-- The output with some of its value taken away. -/
def CTxOut.less (c : ℤ) (out : CTxOut) : CTxOut := { out with nValue := out.nValue - c }

/-- What the loop of `FillTransactionMultiTier` carries. -/
structure FillTotals where
  vout : List CTxOut
  nMultiTierCount : ℕ
  nTotalMultiTierRewards : ℤ

section
variable (pay : ℤ → ℕ → ℤ)
variable (H : Hashing) (mt : CMultiTier) (view : CCoinsView) (pindexPrev : CBlockIndex)
variable (blockValue : ℤ)

/-- The body of the loop of `FillTransactionMultiTier` over the tiers. -/
def fillTier (t : FillTotals) (level : ℕ) : FillTotals :=
  let e := elect H mt view pindexPrev level []
  if e.hashLevel.gt BaseUint.zero then
    { vout := t.vout ++ [⟨pay blockValue level, e.destination⟩]
      nMultiTierCount := t.nMultiTierCount + 1
      nTotalMultiTierRewards := t.nTotalMultiTierRewards + pay blockValue level }
  else t

/-- The end of `FillTransactionMultiTier`: the rewards are taken from the outputs of the
stake, in equal parts and the rest from the last. -/
def deductRewards (t : FillTotals) : List CTxOut :=
  let i := t.vout.length
  if i = t.nMultiTierCount + 2 then
    t.vout.modify (i - (t.nMultiTierCount + 1)) (CTxOut.less t.nTotalMultiTierRewards)
  else if i > t.nMultiTierCount + 2 then
    let outputs := i - (t.nMultiTierCount + 1)
    let stakeSplit := t.nTotalMultiTierRewards.tdiv outputs
    let residue := t.nTotalMultiTierRewards - stakeSplit * outputs
    ((List.range' 1 outputs).foldl (fun vout j => vout.modify j (CTxOut.less stakeSplit))
      t.vout).modify outputs (CTxOut.less residue)
  else t.vout

/-- `FillTransactionMultiTier`, on the outputs of the transaction. -/
def fillTransactionMultiTier (vout : List CTxOut) : List CTxOut :=
  deductRewards (multiTierLevels.foldl (fillTier pay H mt view pindexPrev blockValue) ⟨vout, 0, 0⟩)

/-! ## Checking -/

/-- The loop of `CheckTransactionMultiTier` over the tiers. -/
def checkTiers (vout : List CTxOut) : List ℕ → CScript → Bool
  | [], _ => true
  | level :: levels, destination =>
    let e := elect H mt view pindexPrev level destination
    if e.hashLevel.gt BaseUint.zero && !(vout.any fun out =>
        out.scriptPubKey == e.destination && decide (out.nValue ≥ pay blockValue level)) then false
    else checkTiers vout levels e.destination

end

/-- `CheckTransactionMultiTier`. `pindex` is the entry of the block itself. -/
def checkTransactionMultiTier (pay : ℤ → ℕ → ℤ) (H : Hashing) (mt : CMultiTier)
    (view : CCoinsView) (mapBlockIndex : BlockMap) (block : CBlock) (blockValue : ℤ)
    (pindex : CBlockIndex) : Result Bool :=
  match block.vtx[1]? with
  | none => .error (.outOfBounds "block.vtx[1]")
  | some txNew =>
    match pindex.prev mapBlockIndex with
    | none => .error (.outOfBounds "pindexPrev->pprev")
    | some pprev =>
      .ok (checkTiers pay H mt view pprev blockValue txNew.vout multiTierLevels [])

/-! ## Who is elected for a tier

The loop over the register ends with the candidate of the smallest hash, whatever the
variable `destination` held before it. Entries without a candidate coin do not matter, so
the election depends only on the outputs of the tier that the view still has.
-/

open BaseUint

variable {H : Hashing} {mt : CMultiTier} {view : CCoinsView} {pindexPrev : CBlockIndex}
variable {level : ℕ} {destination : CScript}

/-- Two elections that differ at most in what `destination` holds before a candidate is
met. -/
def Election.Alike (e e' : Election) : Prop :=
  e = e' ∨ (e.hashLevel = BaseUint.zero ∧ e'.hashLevel = BaseUint.zero)

theorem Election.Alike.step {e e' : Election} (h : e.Alike e') (out : Uint256 × COutPoint) :
    (electStep H view pindexPrev level e out).Alike (electStep H view pindexPrev level e' out) := by
  rcases h with rfl | ⟨h0, h0'⟩
  · exact .inl rfl
  · unfold electStep
    cases tierCoin view pindexPrev level out.2 with
    | none => exact .inr ⟨h0, h0'⟩
    | some k => exact .inl (by simp [h0, h0'])

theorem elect_alike (H : Hashing) (mt : CMultiTier) (view : CCoinsView) (pindexPrev : CBlockIndex)
    (level : ℕ) (d d' : CScript) :
    (elect H mt view pindexPrev level d).Alike (elect H mt view pindexPrev level d') := by
  exact List.foldl_rel (.inr ⟨rfl, rfl⟩) fun out _ _ _ h => h.step out

/-- The winner is what the loop ends with, whatever `destination` held before it. -/
theorem tierWinner_eq (d : CScript) :
    tierWinner H mt view pindexPrev level =
      if (elect H mt view pindexPrev level d).hashLevel.gt zero then
        some (elect H mt view pindexPrev level d).destination
      else none := by
  unfold tierWinner
  dsimp only
  rcases elect_alike H mt view pindexPrev level [] d with h | ⟨h, h'⟩
  · rw [h]
  · rw [h, h']
    rfl

/-! ## The smallest hash -/

/-- **An outpoint that wins a tier**: it is registered, its coin is a candidate, and no
candidate has a smaller hash. -/
structure WinsTier (H : Hashing) (mt : CMultiTier) (view : CCoinsView) (pindexPrev : CBlockIndex)
    (level : ℕ) (out : COutPoint) (k : Coin) : Prop where
  registered : out ∈ mt.mapMultiTierStaking.entries.map Prod.snd
  coin : tierCoin view pindexPrev level out = some k
  least : ∀ o ∈ mt.mapMultiTierStaking.entries.map Prod.snd,
    (tierCoin view pindexPrev level o).isSome →
      electionHash H pindexPrev out ≤ electionHash H pindexPrev o

/-- The loop over a list of entries, none of whose candidates hashes to zero: it met no
candidate, or it holds the one of the smallest hash. -/
theorem foldl_electStep {l : List (Uint256 × COutPoint)}
    (hnz : ∀ o ∈ l.map Prod.snd, (tierCoin view pindexPrev level o).isSome →
      electionHash H pindexPrev o ≠ zero) :
    (l.foldl (electStep H view pindexPrev level) ⟨zero, destination⟩ =
        ⟨zero, destination⟩ ∧
      ∀ o ∈ l.map Prod.snd, tierCoin view pindexPrev level o = none) ∨
    ∃ o ∈ l.map Prod.snd, ∃ k, tierCoin view pindexPrev level o = some k ∧
      l.foldl (electStep H view pindexPrev level) ⟨zero, destination⟩ =
        ⟨electionHash H pindexPrev o, k.out.scriptPubKey⟩ ∧
      ∀ o' ∈ l.map Prod.snd, (tierCoin view pindexPrev level o').isSome →
        electionHash H pindexPrev o ≤ electionHash H pindexPrev o' := by
  induction l using List.reverseRecOn with
  | nil => exact .inl ⟨rfl, by simp⟩
  | append_singleton l out ih =>
    have hmem : ∀ o, o ∈ (l ++ [out]).map Prod.snd ↔ o ∈ l.map Prod.snd ∨ o = out.2 := by simp
    have ih := ih fun o ho => hnz o ((hmem o).mpr (.inl ho))
    rw [List.foldl_concat]
    simp only [hmem]
    cases hk : tierCoin view pindexPrev level out.2 with
    | none =>
      have hstep : ∀ e, electStep H view pindexPrev level e out = e := by simp [electStep, hk]
      rw [hstep]
      rcases ih with ⟨h, hnone⟩ | ⟨o, ho, k, hok, h, hle⟩
      · refine .inl ⟨h, ?_⟩
        rintro o (ho | rfl)
        · exact hnone o ho
        · exact hk
      · refine .inr ⟨o, .inl ho, k, hok, h, ?_⟩
        rintro o' (ho' | rfl) hs
        · exact hle o' ho' hs
        · rw [hk] at hs
          cases hs
    | some k =>
      rcases ih with ⟨h, hnone⟩ | ⟨o, ho, k', hok, h, hle⟩
      · -- the first candidate
        refine .inr ⟨out.2, .inr rfl, k, hk, by simp [h, electStep, hk], ?_⟩
        rintro o (ho | rfl) hs
        · rw [hnone o ho] at hs
          cases hs
        · exact le_rfl
      · have ho0 : electionHash H pindexPrev o ≠ zero :=
          hnz o ((hmem o).mpr (.inl ho)) (by simp [hok])
        by_cases hlt : (electionHash H pindexPrev out.2).lt (electionHash H pindexPrev o) = true
        · have hlt' := (lt_iff _ _).mp hlt
          refine .inr ⟨out.2, .inr rfl, k, hk, by simp [h, electStep, hk, hlt], ?_⟩
          rintro o' (ho' | rfl) hs
          · exact le_trans (le_of_lt hlt') (hle o' ho' hs)
          · exact le_rfl
        · have hge := mt (lt_iff _ _).mpr hlt
          refine .inr ⟨o, .inl ho, k', hok, by simp [h, electStep, hk, ho0, hlt], ?_⟩
          rintro o' (ho' | rfl) hs
          · exact hle o' ho' hs
          · exact Nat.le_of_not_lt hge

/-- **The election.** If no candidate hashes to zero, a tier with a candidate elects the
script of the one with the smallest hash, and a tier without candidates elects none. -/
theorem tierWinner_spec (hnz : ∀ o ∈ mt.mapMultiTierStaking.entries.map Prod.snd,
      (tierCoin view pindexPrev level o).isSome → electionHash H pindexPrev o ≠ zero) :
    (tierWinner H mt view pindexPrev level = none ∧
      ∀ o ∈ mt.mapMultiTierStaking.entries.map Prod.snd,
        tierCoin view pindexPrev level o = none) ∨
    ∃ out k, WinsTier H mt view pindexPrev level out k ∧
      tierWinner H mt view pindexPrev level = some k.out.scriptPubKey := by
  have helect : (elect H mt view pindexPrev level [] = ⟨zero, []⟩ ∧ _) ∨ ∃ o ∈ _, ∃ k, _ ∧
        elect H mt view pindexPrev level [] = ⟨electionHash H pindexPrev o, _⟩ ∧ _ :=
    foldl_electStep hnz
  unfold tierWinner
  rcases helect with ⟨he, hnone⟩ | ⟨o, ho, k, hk, he, hle⟩
  · refine .inl ⟨?_, hnone⟩
    rw [he]
    rfl
  · refine .inr ⟨o, k, ⟨ho, hk, hle⟩, ?_⟩
    have hpos : (electionHash H pindexPrev o).gt zero = true := by
      rw [gt_iff, toNat_zero]
      have hne : (electionHash H pindexPrev o).toNat ≠ 0 := by
        intro h0
        exact hnz o ho (by simp [hk]) (toNat_injective (h0.trans toNat_zero.symm))
      omega
    simp [he, hpos]

/-! ## What the tiers are paid

`FillTransactionMultiTier` in closed form: behind the outputs of the stake stands one output for
every tier that elects a script, and the outputs of the stake lose what these pay.

One output can answer for several tiers, so that a script that is elected twice may be paid once.
-/

open List CTxOut

/-- The sum of the values of some outputs. -/
def valueSum (vout : List CTxOut) : ℤ := (vout.map (·.nValue)).sum

@[simp] theorem valueSum_nil : valueSum [] = 0 := rfl

@[simp] theorem valueSum_cons (out : CTxOut) (vout : List CTxOut) :
    valueSum (out :: vout) = out.nValue + valueSum vout := by
  simp [valueSum]

@[simp] theorem valueSum_append (vout vout' : List CTxOut) :
    valueSum (vout ++ vout') = valueSum vout + valueSum vout' := by
  simp [valueSum]

variable {vout stakes : List CTxOut}

theorem valueSum_nonneg (h : ∀ out ∈ vout, 0 ≤ out.nValue) : 0 ≤ valueSum vout := by
  induction vout with
  | nil => exact le_rfl
  | cons out vout ih =>
    have hout := h out (mem_cons_self ..)
    have hrest := ih fun o ho => h o (mem_cons_of_mem _ ho)
    rw [valueSum_cons]
    omega

/-! ## The deduction -/

/-- Taking the same value from some outputs takes that value for each of them. -/
theorem valueSum_map_less (c : ℤ) (vout : List CTxOut) :
    valueSum (vout.map (less c)) = valueSum vout - c * vout.length := by
  induction vout with
  | nil => simp
  | cons out vout ih =>
    rw [map_cons, valueSum_cons, valueSum_cons, ih, length_cons]
    unfold less
    push_cast
    ring

theorem valueSum_modify_less (c : ℤ) {i : ℕ} (hi : i < vout.length) :
    valueSum (vout.modify i (less c)) = valueSum vout - c := by
  induction vout generalizing i with
  | nil => simp at hi
  | cons out vout ih =>
    cases i with
    | zero =>
      rw [modify_zero_cons, valueSum_cons, valueSum_cons]
      unfold less
      dsimp only
      omega
    | succ i =>
      have hi' : i < vout.length := by simpa using hi
      rw [modify_succ_cons, valueSum_cons, valueSum_cons, ih hi']
      omega

/-- A loop that changes the elements of a segment one after the other. -/
theorem foldl_modify_range' {α : Type*} (f : α → α) (pre mid post : List α) :
    (List.range' pre.length mid.length).foldl (fun l j => l.modify j f) (pre ++ (mid ++ post)) =
      pre ++ (mid.map f ++ post) := by
  induction mid generalizing pre with
  | nil => simp
  | cons a mid ih =>
    have hstep : (pre ++ (a :: mid ++ post)).modify pre.length f =
        (pre ++ [f a]) ++ (mid ++ post) := by
      rw [modify_eq_take_cons_drop (by simp)]
      simp
    have hlen : pre.length + 1 = (pre ++ [f a]).length := by simp
    rw [length_cons, range'_succ, foldl_cons, hstep, hlen, ih]
    simp

/-- The outputs of a stake without a reward: equal parts, and the rest from the last. -/
def deducted (reward : ℤ) (stakes : List CTxOut) : List CTxOut :=
  let stakeSplit := reward.tdiv stakes.length
  (stakes.map (CTxOut.less stakeSplit)).modify (stakes.length - 1)
    (CTxOut.less (reward - stakeSplit * stakes.length))

@[simp] theorem length_deducted (reward : ℤ) (stakes : List CTxOut) :
    (deducted reward stakes).length = stakes.length := by
  simp [deducted]

theorem valueSum_deducted (reward : ℤ) (h : stakes ≠ []) :
    valueSum (deducted reward stakes) = valueSum stakes - reward := by
  have hpos : 0 < stakes.length := length_pos_iff.mpr h
  unfold deducted
  rw [valueSum_modify_less _ (by rw [length_map]; omega), valueSum_map_less]
  ring

theorem map_script_deducted (reward : ℤ) (stakes : List CTxOut) :
    (deducted reward stakes).map (·.scriptPubKey) = stakes.map (·.scriptPubKey) := by
  have hmodify : ∀ c i (l : List CTxOut),
      (l.modify i (less c)).map (·.scriptPubKey) = l.map (·.scriptPubKey) := by
    intro c i l
    refine ext_getElem? fun j => ?_
    rw [getElem?_map, getElem?_map, getElem?_modify]
    cases l[j]? with
    | none => rfl
    | some out => by_cases hij : i = j <;> simp [hij, less]
  rw [deducted, hmodify, map_map]
  rfl

/-- What the end of `FillTransactionMultiTier` does, when the outputs are an empty one,
those of the stake and those of the tiers. -/
theorem deductRewards_eq {first : CTxOut} {tiers : List CTxOut} {reward : ℤ} (h : stakes ≠ []) :
    deductRewards ⟨first :: (stakes ++ tiers), tiers.length, reward⟩ =
      first :: (deducted reward stakes ++ tiers) := by
  have hlen : (first :: (stakes ++ tiers)).length = stakes.length + tiers.length + 1 := by simp
  have hpos : 0 < stakes.length := length_pos_iff.mpr h
  unfold deductRewards
  dsimp only
  rw [hlen]
  by_cases hone : stakes.length = 1
  · obtain ⟨s, rfl⟩ := length_eq_one_iff.mp hone
    have hidx : 1 + tiers.length + 1 - (tiers.length + 1) = 1 := by omega
    rw [length_singleton, if_pos (by omega), hidx]
    simp [deducted, less]
  · have hidx : stakes.length + tiers.length + 1 - (tiers.length + 1) = stakes.length := by omega
    rw [if_neg (by omega), if_pos (by omega), hidx]
    have hfold := foldl_modify_range' (less (reward.tdiv stakes.length)) [first] stakes tiers
    change ((range' [first].length stakes.length).foldl _ ([first] ++ (stakes ++ tiers))).modify
      _ _ = _
    rw [hfold]
    -- the last output of the stake sits right behind the first output and the others
    obtain ⟨n, hn⟩ : ∃ n, stakes.length = n + 1 := ⟨stakes.length - 1, by omega⟩
    have hlt : n < (stakes.map (less (reward.tdiv stakes.length))).length := by
      rw [length_map]
      omega
    have hsplit : ∀ (l : List CTxOut) (f : CTxOut → CTxOut), n < l.length →
        (l ++ tiers).modify n f = l.modify n f ++ tiers := by
      intro l f hl
      rw [modify_eq_take_cons_drop (by simp; omega), modify_eq_take_cons_drop hl]
      simp [take_append_of_le_length (le_of_lt hl), getElem_append_left hl,
        drop_append_of_le_length (show n + 1 ≤ l.length by omega)]
    rw [singleton_append, deducted]
    nth_rewrite 2 [hn]
    rw [modify_succ_cons, hsplit _ _ hlt]
    congr 3
    omega

/-! ## The payments -/

section
variable (pay : ℤ → ℕ → ℤ)
variable (H : Hashing) (mt : CMultiTier) (view : CCoinsView) (pindexPrev : CBlockIndex)
variable (blockValue : ℤ)

/-- One output for every tier of a list that elects a script: its payment, to the script. -/
def tierOutputs (levels : List ℕ) : List CTxOut :=
  levels.filterMap fun level => (tierWinner H mt view pindexPrev level).map fun script =>
    ⟨pay blockValue level, script⟩

end

variable {pay : ℤ → ℕ → ℤ}
variable {H : Hashing} {mt : CMultiTier} {view : CCoinsView} {pindexPrev : CBlockIndex}
variable {blockValue : ℤ} {levels : List ℕ}

theorem mem_tierOutputs {out : CTxOut} :
    out ∈ tierOutputs pay H mt view pindexPrev blockValue levels ↔ ∃ level ∈ levels,
      tierWinner H mt view pindexPrev level = some out.scriptPubKey ∧
        out.nValue = pay blockValue level := by
  unfold tierOutputs
  rw [mem_filterMap]
  constructor
  · rintro ⟨level, hlevel, hout⟩
    obtain ⟨script, hwin, rfl⟩ := Option.map_eq_some_iff.mp hout
    exact ⟨level, hlevel, hwin, rfl⟩
  · rintro ⟨level, hlevel, hwin, hval⟩
    refine ⟨level, hlevel, Option.map_eq_some_iff.mpr ⟨out.scriptPubKey, hwin, ?_⟩⟩
    rw [← hval]

theorem valueSum_tierOutputs_le (hpay : ∀ level ∈ levels, 0 ≤ pay blockValue level) :
    valueSum (tierOutputs pay H mt view pindexPrev blockValue levels) ≤
      (levels.map (pay blockValue)).sum := by
  induction levels with
  | nil => exact le_rfl
  | cons level levels ih =>
    have hlevel := hpay level (mem_cons_self ..)
    have hrest := ih fun l hl => hpay l (mem_cons_of_mem _ hl)
    unfold tierOutputs at hrest ⊢
    rw [filterMap_cons, map_cons, sum_cons]
    cases tierWinner H mt view pindexPrev level with
    | none =>
      simp only [Option.map_none]
      omega
    | some script =>
      simp only [Option.map_some, valueSum_cons]
      omega

/-- The loop of `FillTransactionMultiTier` over some tiers. -/
theorem foldl_fillTier (t : FillTotals) :
    levels.foldl (fillTier pay H mt view pindexPrev blockValue) t =
      ⟨t.vout ++ tierOutputs pay H mt view pindexPrev blockValue levels,
        t.nMultiTierCount + (tierOutputs pay H mt view pindexPrev blockValue levels).length,
        t.nTotalMultiTierRewards +
          valueSum (tierOutputs pay H mt view pindexPrev blockValue levels)⟩ := by
  induction levels generalizing t with
  | nil => simp [tierOutputs]
  | cons level levels ih =>
    rw [foldl_cons, ih]
    unfold fillTier tierOutputs
    rw [filterMap_cons, tierWinner_eq []]
    by_cases hwin : (elect H mt view pindexPrev level []).hashLevel.gt BaseUint.zero = true
    · simp only [hwin, if_true, Option.map_some, append_assoc, length_cons, valueSum_cons]
      congr 1
      · omega
      · omega
    · simp [hwin]

/-- **`FillTransactionMultiTier` in closed form.** -/
theorem fillTransactionMultiTier_eq {first : CTxOut} (h : stakes ≠ []) :
    fillTransactionMultiTier pay H mt view pindexPrev blockValue (first :: stakes) =
      first :: (deducted
        (valueSum (tierOutputs pay H mt view pindexPrev blockValue multiTierLevels)) stakes ++
        tierOutputs pay H mt view pindexPrev blockValue multiTierLevels) := by
  rw [fillTransactionMultiTier, foldl_fillTier]
  simp only [Nat.zero_add, Int.zero_add]
  exact deductRewards_eq h

/-- **What the check asks**: every tier that elects a script finds an output to the script of
at least its payment. -/
theorem checkTiers_iff {destination : CScript} :
    checkTiers pay H mt view pindexPrev blockValue vout levels destination = true ↔
      ∀ level ∈ levels, ∀ script, tierWinner H mt view pindexPrev level = some script →
        ∃ out ∈ vout, out.scriptPubKey = script ∧ pay blockValue level ≤ out.nValue := by
  induction levels generalizing destination with
  | nil => simp [checkTiers]
  | cons level levels ih =>
    rw [forall_mem_cons, checkTiers, tierWinner_eq destination]
    by_cases hwin :
        (elect H mt view pindexPrev level destination).hashLevel.gt BaseUint.zero = true
    · simp only [hwin, if_true, Option.some.injEq, forall_eq']
      by_cases hfound : (vout.any fun out =>
          out.scriptPubKey == (elect H mt view pindexPrev level destination).destination &&
            decide (out.nValue ≥ pay blockValue level)) = true
      · rw [hfound, if_neg (by simp), ih]
        simp only [any_eq_true, Bool.and_eq_true, beq_iff_eq, decide_eq_true_eq] at hfound
        exact ⟨fun h => ⟨hfound, h⟩, fun h => h.2⟩
      · rw [Bool.not_eq_true] at hfound
        rw [hfound]
        constructor
        · intro h
          cases h
        · rintro ⟨⟨out, hout, hscript, hval⟩, -⟩
          have := any_eq_false.mp hfound out hout
          simp [hscript, hval] at this
    · simp only [hwin, Bool.false_and, Bool.false_eq_true, if_false, ih]
      exact ⟨fun h => ⟨nofun, h⟩, fun h => h.2⟩

/-- The outputs of the tiers satisfy the check. -/
theorem checkTiers_of_tierOutputs {destination : CScript}
    (h : ∀ out ∈ tierOutputs pay H mt view pindexPrev blockValue levels, out ∈ vout) :
    checkTiers pay H mt view pindexPrev blockValue vout levels destination = true := by
  rw [checkTiers_iff]
  intro level hlevel script hwin
  refine ⟨⟨pay blockValue level, script⟩, h _ ?_, rfl, le_rfl⟩
  exact mem_tierOutputs.mpr ⟨level, hlevel, hwin, rfl⟩

/-- The check on a block whose coinstake and parent are known. -/
theorem checkTransactionMultiTier_eq {mapBlockIndex : BlockMap} {block : CBlock}
    {pindex : CBlockIndex} {tx : CTransaction} (htx : block.vtx[1]? = some tx)
    (hprev : pindex.prev mapBlockIndex = some pindexPrev) :
    checkTransactionMultiTier pay H mt view mapBlockIndex block blockValue pindex =
      .ok (checkTiers pay H mt view pindexPrev blockValue tx.vout multiTierLevels []) := by
  unfold checkTransactionMultiTier
  rw [htx, hprev]

/-- **Splitting the payout.** Behind the outputs of the stake `FillTransactionMultiTier` puts
one output for every tier that elects a script, with the payment of the tier and the elected
script; where no candidate hashes to zero, these are the tiers with a candidate, and the
script is that of the candidate with the smallest hash. The total stays as it was, the stake
keeps at least its principal, and `CheckTransactionMultiTier` accepts the transaction as the
coinstake of the next block. -/
theorem fillTransactionMultiTier_pays {principal : ℤ} {first : CTxOut} {stakes : List CTxOut}
    (hpay : ∀ level ∈ multiTierLevels, 0 ≤ pay blockValue level)
    (hsum : (multiTierLevels.map (pay blockValue)).sum ≤ blockValue) (hstakes : stakes ≠ [])
    (htotal : valueSum stakes = principal + blockValue) :
    ∃ stakes', fillTransactionMultiTier pay H mt view pindexPrev blockValue (first :: stakes) =
        first :: (stakes' ++ tierOutputs pay H mt view pindexPrev blockValue multiTierLevels) ∧
      stakes'.map (·.scriptPubKey) = stakes.map (·.scriptPubKey) ∧
      valueSum (first :: (stakes' ++
        tierOutputs pay H mt view pindexPrev blockValue multiTierLevels)) =
          valueSum (first :: stakes) ∧
      principal ≤ valueSum stakes' ∧
      (∀ level ∈ multiTierLevels, (∀ o ∈ mt.mapMultiTierStaking.entries.map Prod.snd,
          (tierCoin view pindexPrev level o).isSome →
            electionHash H pindexPrev o ≠ BaseUint.zero) →
        (tierWinner H mt view pindexPrev level = none ∧
          ∀ o ∈ mt.mapMultiTierStaking.entries.map Prod.snd,
            tierCoin view pindexPrev level o = none) ∨
        ∃ out k, WinsTier H mt view pindexPrev level out k ∧
          tierWinner H mt view pindexPrev level = some k.out.scriptPubKey) ∧
      ∀ (mapBlockIndex : BlockMap) (block : CBlock) (pindex : CBlockIndex) (tx : CTransaction),
        block.vtx[1]? = some tx → pindex.prev mapBlockIndex = some pindexPrev →
        tx.vout = fillTransactionMultiTier pay H mt view pindexPrev blockValue (first :: stakes) →
        checkTransactionMultiTier pay H mt view mapBlockIndex block blockValue pindex =
          .ok true := by
  have hrewards :
      valueSum (tierOutputs pay H mt view pindexPrev blockValue multiTierLevels) ≤ blockValue :=
    (valueSum_tierOutputs_le hpay).trans hsum
  refine ⟨_, fillTransactionMultiTier_eq hstakes, map_script_deducted _ _, ?_, ?_,
    fun level _ => tierWinner_spec, ?_⟩
  · rw [valueSum_cons, valueSum_cons, valueSum_append, valueSum_deducted _ hstakes]
    omega
  · rw [valueSum_deducted _ hstakes]
    omega
  · intro mapBlockIndex block pindex tx htx hprev hvout
    rw [checkTransactionMultiTier_eq htx hprev, hvout, fillTransactionMultiTier_eq hstakes]
    refine congrArg Except.ok (checkTiers_of_tierOutputs fun out hout => ?_)
    exact mem_cons_of_mem _ (mem_append_right _ hout)

/-! ## A register with two outputs -/

/-- Two outpoints. -/
def tierOutpoint (n : ℕ) : COutPoint := ⟨BaseUint.ofNat n, 0⟩

/-- A view of an output of the first tier and one of the second. -/
def tierView (script₁ script₂ : CScript) : CCoinsView :=
  .db ⟨(AList.singleton (tierOutpoint 1) ⟨false, false, ⟨5000 * COIN, script₁⟩, 1⟩).insert
    (tierOutpoint 2) ⟨false, false, ⟨10000 * COIN, script₂⟩, 1⟩, ∅, [], BaseUint.zero, none⟩

/-- The register of both. -/
def tierRegister : CMultiTier :=
  ⟨(OrderedMap.empty.insert ((tierOutpoint 1).getHash sampleEnv.toHashing)
    (tierOutpoint 1)).insert ((tierOutpoint 2).getHash sampleEnv.toHashing) (tierOutpoint 2)⟩

/-- A block with a coinstake of these outputs. -/
def blockPaying (vout : List CTxOut) : CBlock where
  nVersion := 8
  hashPrevBlock := BaseUint.zero
  hashMerkleRoot := BaseUint.zero
  nTime := 0
  nBits := 0
  nNonce := 0
  hashFinalSaplingRoot := BaseUint.zero
  vtx := [.coinbase [] [], .plain [] vout]
  vchBlockSig := []
  fChecked := false

/-- The entry of a parent at height 1100. -/
def tierParent : CBlockIndex :=
  { CBlockIndex.ofBlock (BaseUint.ofNat 3) (blockPaying []) with nHeight := 1100 }

theorem fillTransactionMultiTier_pays_two :
    (tierOutputs getMultiTierValue sampleEnv.toHashing tierRegister (tierView [0x51] [0x52])
        tierParent (15 * COIN) multiTierLevels).length = 2 ∧
      ∃ stakes', fillTransactionMultiTier getMultiTierValue sampleEnv.toHashing tierRegister
          (tierView [0x51] [0x52]) tierParent (15 * COIN) [⟨0, []⟩, ⟨415 * COIN, [0x53]⟩] =
            ⟨0, []⟩ :: (stakes' ++ tierOutputs getMultiTierValue sampleEnv.toHashing tierRegister
              (tierView [0x51] [0x52]) tierParent (15 * COIN) multiTierLevels) ∧
        400 * COIN ≤ valueSum stakes' := by
  refine ⟨by decide +kernel, ?_⟩
  have hvalue : 0 ≤ 15 * COIN := by decide
  have hsum : (multiTierLevels.map (getMultiTierValue (15 * COIN))).sum ≤ 15 * COIN := by
    decide +kernel
  have htotal : valueSum [⟨415 * COIN, [0x53]⟩] = 400 * COIN + 15 * COIN := by decide
  obtain ⟨stakes', hfill, -, -, hprincipal, -⟩ :=
    fillTransactionMultiTier_pays (fun level _ => getMultiTierValue_nonneg hvalue level) hsum
      (cons_ne_nil _ _) htotal
  exact ⟨stakes', hfill, hprincipal⟩

end Passion
