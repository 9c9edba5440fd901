import Passion.Staking.MultiTier

/-!
# One output for several tiers

`CheckTransactionMultiTier` looks for the payment of every tier on its own, so an output that is
large enough for one tier is found again for another that elects the same script.
-/

namespace Passion

open List

section
variable (pay : ℤ → ℕ → ℤ)
variable (H : Hashing) (mt : CMultiTier) (view : CCoinsView) (pindexPrev : CBlockIndex)
variable (blockValue : ℤ)

/-- What a tier owes a script. -/
def tierDue (script : CScript) (level : ℕ) : ℤ :=
  if tierWinner H mt view pindexPrev level = some script then pay blockValue level else 0

/-- What some tiers together owe a script. -/
def dueTo (levels : List ℕ) (script : CScript) : ℤ :=
  (levels.map (tierDue pay H mt view pindexPrev blockValue script)).sum

end

/-- The value of the outputs that pay a script. -/
def paidTo (vout : List CTxOut) (script : CScript) : ℤ :=
  valueSum (vout.filter fun out => out.scriptPubKey == script)

/-- **The winners are paid in full**: every script gets what all tiers that elect it owe. -/
def PaysInFull (pay : ℤ → ℕ → ℤ) (H : Hashing) (mt : CMultiTier) (view : CCoinsView)
    (pindexPrev : CBlockIndex) (blockValue : ℤ) (vout : List CTxOut) : Prop :=
  ∀ script,
    dueTo pay H mt view pindexPrev blockValue multiTierLevels script ≤ paidTo vout script

/-- **No script is elected for two tiers that pay something.** -/
def SeparateWinners (pay : ℤ → ℕ → ℤ) (H : Hashing) (mt : CMultiTier) (view : CCoinsView)
    (pindexPrev : CBlockIndex) (blockValue : ℤ) : Prop :=
  ∀ i ∈ multiTierLevels, ∀ j ∈ multiTierLevels, i ≠ j → ∀ script,
    tierWinner H mt view pindexPrev i = some script →
    tierWinner H mt view pindexPrev j = some script →
      pay blockValue i = 0 ∨ pay blockValue j = 0

variable {pay : ℤ → ℕ → ℤ}
variable {H : Hashing} {mt : CMultiTier} {view : CCoinsView} {pindexPrev : CBlockIndex}
variable {blockValue : ℤ} {levels : List ℕ} {script : CScript}

/-! ## What is paid -/

variable {vout : List CTxOut}

theorem paidTo_nonneg (h : ∀ out ∈ vout, 0 ≤ out.nValue) : 0 ≤ paidTo vout script :=
  valueSum_nonneg fun out hout => h out (mem_of_mem_filter hout)

/-- One output is part of what its script is paid. -/
theorem le_paidTo (h : ∀ out ∈ vout, 0 ≤ out.nValue) {out : CTxOut} (hout : out ∈ vout) :
    out.nValue ≤ paidTo vout out.scriptPubKey := by
  have hmem : out ∈ vout.filter fun o => o.scriptPubKey == out.scriptPubKey := by
    simpa using hout
  refine single_le_sum ?_ _ (mem_map_of_mem hmem)
  intro v hv
  obtain ⟨o, ho, rfl⟩ := mem_map.mp hv
  exact h o (mem_of_mem_filter ho)

/-- The outputs of some tiers pay a script what these tiers owe it. -/
theorem paidTo_tierOutputs :
    paidTo (tierOutputs pay H mt view pindexPrev blockValue levels) script =
      dueTo pay H mt view pindexPrev blockValue levels script := by
  induction levels with
  | nil => rfl
  | cons level levels ih =>
    unfold paidTo dueTo tierOutputs at ih ⊢
    rw [filterMap_cons, map_cons, sum_cons, ← ih, tierDue]
    cases tierWinner H mt view pindexPrev level with
    | none => simp
    | some s =>
      by_cases hs : s = script
      · simp [hs]
      · simp [hs]

/-- Amounts of which any two are not both positive sum to at most their bound. -/
theorem sum_map_le_of_pairwise {f : ℕ → ℤ} {M : ℤ} {l : List ℕ} (hM : 0 ≤ M)
    (hle : ∀ i ∈ l, f i ≤ M) (h : l.Pairwise fun i j => f i = 0 ∨ f j = 0) : (l.map f).sum ≤ M := by
  induction l with
  | nil => exact hM
  | cons i l ih =>
    rw [pairwise_cons] at h
    rw [map_cons, sum_cons]
    by_cases hi : f i = 0
    · have := ih (fun j hj => hle j (mem_cons_of_mem _ hj)) h.2
      omega
    · -- all the others are zero
      have hrest : (l.map f).sum = 0 := sum_eq_zero fun x hx => by
        obtain ⟨j, hj, rfl⟩ := mem_map.mp hx
        exact (h.1 j hj).resolve_left hi
      have := hle i (mem_cons_self ..)
      omega

/-! ## The check -/

/-- If no script wins two paying tiers, what passes the check pays in full. -/
theorem SeparateWinners.paysInFull (hsep : SeparateWinners pay H mt view pindexPrev blockValue)
    (hvout : ∀ out ∈ vout, 0 ≤ out.nValue)
    (hcheck : checkTiers pay H mt view pindexPrev blockValue vout multiTierLevels [] = true) :
    PaysInFull pay H mt view pindexPrev blockValue vout := by
  intro script
  refine sum_map_le_of_pairwise (paidTo_nonneg hvout) ?_ ?_
  · intro level hlevel
    unfold tierDue
    split
    · next hwin =>
      obtain ⟨out, hout, rfl, hle⟩ := checkTiers_iff.mp hcheck level hlevel script hwin
      exact hle.trans (le_paidTo hvout hout)
    · exact paidTo_nonneg hvout
  · refine Nodup.pairwise_of_forall_ne (by decide) fun i hi j hj hij => ?_
    unfold tierDue
    split
    · next hwi =>
      split
      · next hwj => exact hsep i hi j hj hij script hwi hwj
      · exact .inr rfl
    · exact .inl rfl

/-- If a script wins two paying tiers, outputs for all but the smaller of them pass the check
and pay the script too little. -/
theorem underpaid_of_shared {i j : ℕ} (hi : i ∈ multiTierLevels) (hj : j ∈ multiTierLevels)
    (hij : i ≠ j) (hwi : tierWinner H mt view pindexPrev i = some script)
    (hwj : tierWinner H mt view pindexPrev j = some script) (hpos : 0 < pay blockValue i)
    (hle : pay blockValue i ≤ pay blockValue j) :
    checkTiers pay H mt view pindexPrev blockValue
        (tierOutputs pay H mt view pindexPrev blockValue (multiTierLevels.erase i))
        multiTierLevels [] = true ∧
      ¬ PaysInFull pay H mt view pindexPrev blockValue
        (tierOutputs pay H mt view pindexPrev blockValue (multiTierLevels.erase i)) := by
  constructor
  · rw [checkTiers_iff]
    intro level hlevel s hwin
    by_cases heq : level = i
    · -- the output of tier j is found again
      subst heq
      have hs : script = s := Option.some.inj (hwi.symm.trans hwin)
      refine ⟨⟨pay blockValue j, script⟩, mem_tierOutputs.mpr ⟨j, ?_, hwj, rfl⟩, hs, hle⟩
      exact (mem_erase_of_ne hij.symm).mpr hj
    · refine ⟨⟨pay blockValue level, s⟩, mem_tierOutputs.mpr ⟨level, ?_, hwin, rfl⟩, rfl, le_rfl⟩
      exact (mem_erase_of_ne heq).mpr hlevel
  · intro hfull
    have hdue := hfull script
    have hsplit : tierDue pay H mt view pindexPrev blockValue script i +
        dueTo pay H mt view pindexPrev blockValue (multiTierLevels.erase i) script =
          dueTo pay H mt view pindexPrev blockValue multiTierLevels script :=
      sum_map_erase _ hi
    rw [paidTo_tierOutputs, ← hsplit, tierDue, if_pos hwi] at hdue
    omega

theorem forall_paysInFull_iff (hpay : ∀ level, 0 ≤ pay blockValue level) :
    (∀ vout : List CTxOut, (∀ out ∈ vout, 0 ≤ out.nValue) →
      checkTiers pay H mt view pindexPrev blockValue vout multiTierLevels [] = true →
        PaysInFull pay H mt view pindexPrev blockValue vout) ↔
      SeparateWinners pay H mt view pindexPrev blockValue := by
  constructor
  · intro hall i hi j hj hij script hwi hwj
    by_contra! hne
    have hnonneg : ∀ levels, ∀ out ∈ tierOutputs pay H mt view pindexPrev blockValue levels,
        0 ≤ out.nValue := by
      intro levels out hout
      obtain ⟨level, -, -, hval⟩ := mem_tierOutputs.mp hout
      exact hval ▸ hpay level
    rcases le_total (pay blockValue i) (pay blockValue j) with hle | hle
    · have hpos := lt_of_le_of_ne (hpay i) hne.1.symm
      obtain ⟨hcheck, hunder⟩ := underpaid_of_shared hi hj hij hwi hwj hpos hle
      exact hunder (hall _ (hnonneg _) hcheck)
    · have hpos := lt_of_le_of_ne (hpay j) hne.2.symm
      obtain ⟨hcheck, hunder⟩ := underpaid_of_shared hj hi hij.symm hwj hwi hpos hle
      exact hunder (hall _ (hnonneg _) hcheck)
  · intro hsep vout hvout hcheck
    exact hsep.paysInFull hvout hcheck

/-- With a negative output the check passes and too little is paid. -/
theorem underpaid_of_negative (script : CScript) :
    checkTiers pay H mt view pindexPrev blockValue
        (⟨-1, script⟩ :: tierOutputs pay H mt view pindexPrev blockValue multiTierLevels)
        multiTierLevels [] = true ∧
      ¬ PaysInFull pay H mt view pindexPrev blockValue
        (⟨-1, script⟩ :: tierOutputs pay H mt view pindexPrev blockValue multiTierLevels) := by
  refine ⟨checkTiers_of_tierOutputs fun out hout => mem_cons_of_mem _ hout, ?_⟩
  intro hfull
  have hdue := hfull script
  rw [← paidTo_tierOutputs] at hdue
  simp only [paidTo, filter_cons, beq_self_eq_true, if_true, valueSum_cons] at hdue
  omega

/-- **When a coinstake that passes pays the winners in full.** Among coinstakes without
negative outputs: exactly when no script is elected for two tiers that pay something. A
coinstake with a negative output can always pass and pay too little. -/
theorem winners_paid_in_full_iff {params : CChainParams} {mapBlockIndex : BlockMap}
    {pindex : CBlockIndex} (hprev : pindex.prev mapBlockIndex = some pindexPrev) :
    ((∀ (block : CBlock) (tx : CTransaction), block.vtx[1]? = some tx →
        (∀ out ∈ tx.vout, 0 ≤ out.nValue) →
        checkTransactionMultiTier getMultiTierValue H mt view mapBlockIndex block
          (getBlockValue params pindex.nHeight) pindex = .ok true →
        PaysInFull getMultiTierValue H mt view pindexPrev (getBlockValue params pindex.nHeight)
          tx.vout) ↔
      SeparateWinners getMultiTierValue H mt view pindexPrev
        (getBlockValue params pindex.nHeight)) ∧
    ∃ (block : CBlock) (tx : CTransaction), block.vtx[1]? = some tx ∧
      checkTransactionMultiTier getMultiTierValue H mt view mapBlockIndex block
        (getBlockValue params pindex.nHeight) pindex = .ok true ∧
      ¬ PaysInFull getMultiTierValue H mt view pindexPrev (getBlockValue params pindex.nHeight)
        tx.vout := by
  have hpay := getMultiTierValue_nonneg (getBlockValue_nonneg params pindex.nHeight)
  constructor
  · rw [← forall_paysInFull_iff hpay]
    constructor
    · intro hall vout hvout hcheck
      refine hall (blockPaying vout) (.plain [] vout) rfl hvout ?_
      rw [checkTransactionMultiTier_eq rfl hprev]
      exact congrArg Except.ok hcheck
    · intro hall block tx htx hvout hcheck
      rw [checkTransactionMultiTier_eq htx hprev] at hcheck
      exact hall tx.vout hvout (Except.ok.inj hcheck)
  · refine ⟨blockPaying _, .plain [] _, rfl, ?_, (underpaid_of_negative []).2⟩
    rw [checkTransactionMultiTier_eq rfl hprev]
    exact congrArg Except.ok (underpaid_of_negative []).1

/-- The entry of the block after `tierParent`. -/
def tierIndex : CBlockIndex :=
  { CBlockIndex.ofBlock (BaseUint.ofNat 4) (blockPaying []) with
    pprev := some (BaseUint.ofNat 3), nHeight := 1101 }

/-- Two tiers that different scripts win. -/
theorem winners_paid_in_full_two :
    tierIndex.prev (AList.singleton (BaseUint.ofNat 3) tierParent) = some tierParent ∧
    ∀ (block : CBlock) (tx : CTransaction), block.vtx[1]? = some tx →
      (∀ out ∈ tx.vout, 0 ≤ out.nValue) →
      checkTransactionMultiTier getMultiTierValue sampleEnv.toHashing tierRegister
        (tierView [0x51] [0x52]) (AList.singleton (BaseUint.ofNat 3) tierParent) block
        (getBlockValue mainParams tierIndex.nHeight) tierIndex = .ok true →
      PaysInFull getMultiTierValue sampleEnv.toHashing tierRegister (tierView [0x51] [0x52])
        tierParent (getBlockValue mainParams tierIndex.nHeight) tx.vout := by
  refine ⟨rfl, (winners_paid_in_full_iff rfl).1.mpr ?_⟩
  intro i hi j hj hij script hwi hwj
  have hne : ∀ i ∈ multiTierLevels, ∀ j ∈ multiTierLevels, i ≠ j →
      tierWinner sampleEnv tierRegister (tierView [0x51] [0x52]) tierParent i = none ∨
      tierWinner sampleEnv tierRegister (tierView [0x51] [0x52]) tierParent i ≠
        tierWinner sampleEnv tierRegister (tierView [0x51] [0x52]) tierParent j := by
    decide +kernel
  rcases hne i hi j hj hij with hnone | hdiff
  · rw [hnone] at hwi
    cases hwi
  · exact absurd (hwi.trans hwj.symm) hdiff

/-- **One script wins two tiers and is paid for one of them.** The coinstake pays what the
second tier owes, the first tier finds the same output. -/
theorem winners_not_paid_in_full :
    ¬ ∀ (H : Hashing) (params : CChainParams) (mt : CMultiTier) (view : CCoinsView)
        (mapBlockIndex : BlockMap) (pindexPrev pindex : CBlockIndex) (block : CBlock)
        (tx : CTransaction),
      pindex.prev mapBlockIndex = some pindexPrev → block.vtx[1]? = some tx →
      checkTransactionMultiTier getMultiTierValue H mt view mapBlockIndex block
        (getBlockValue params pindex.nHeight) pindex = .ok true →
      PaysInFull getMultiTierValue H mt view pindexPrev (getBlockValue params pindex.nHeight)
        tx.vout := by
  intro hall
  have hdue := hall sampleEnv mainParams tierRegister (tierView [0x51] [0x51])
    (AList.singleton (BaseUint.ofNat 3) tierParent) tierParent tierIndex
    (blockPaying [⟨0, []⟩, ⟨2325 * COIN / 1000, [0x51]⟩]) _ rfl rfl
    (by decide +kernel) [0x51]
  revert hdue
  decide +kernel

end Passion
