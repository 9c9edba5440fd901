import Mathlib.Algebra.Notation.Lemmas
import Passion.Arith.BaseUint
import Passion.Common.StepSum

/-!
# Consensus parameters

The network parameters of `chainparams.cpp` that consensus code reads, and the height at
which each network upgrade becomes active (`consensus/params.cpp`,
`consensus/upgrades.cpp`). Only the main and the test network exist; the register of
networks still has the regression-test name that some functions compare with.
-/

namespace Passion

/-- `COIN`; amounts (`CAmount`) are integers in units of `10 ^ -8` coins. -/
def COIN : ℤ := 100000000

/-- The network names `strNetworkID` can hold. -/
inductive NetworkID
  | main
  | test
  | regtest
  deriving DecidableEq

/-- `Consensus::UpgradeIndex`. -/
inductive UpgradeIndex
  | baseNetwork
  | upgradePos
  | upgradeV5_0
  | upgradeV6_0
  | upgradeTestdummy
  deriving DecidableEq

/-- `NetworkUpgrade::ALWAYS_ACTIVE`. -/
def alwaysActive : ℤ := 0

/-- `NetworkUpgrade::NO_ACTIVATION_HEIGHT`. -/
def noActivationHeight : ℤ := -1

/-- `Consensus::Params`. -/
structure Params where
  hashGenesisBlock : Uint256
  powLimit : Uint256
  posLimitV1 : Uint256
  posLimitV2 : Uint256
  nCoinbaseMaturity : ℤ
  nMaxMoneyOut : ℤ
  nStakeMinDepth : ℤ
  nTargetTimespan : ℤ
  nTargetTimespanV2 : ℤ
  nTargetSpacing : ℤ
  nTimeSlotLength : ℤ
  nMinStakeValue : ℤ
  heightLastInvalidUTXO : ℤ
  /-- `vUpgrades[idx].nActivationHeight`. -/
  nActivationHeight : UpgradeIndex → ℤ

/-- `CChainParams`. -/
structure CChainParams where
  strNetworkID : NetworkID
  consensus : Params
  /-- `Checkpoints().mapCheckpoints`, by height. -/
  mapCheckpoints : List (ℤ × Uint256)

namespace Params

variable (consensus : Params)

/-- `MoneyRange`. -/
def moneyRange (nValue : ℤ) : Bool :=
  decide (0 ≤ nValue) && decide (nValue ≤ consensus.nMaxMoneyOut)

/-- `NetworkUpgradeActive`: never at a negative height, never for an upgrade without an
activation height. -/
def networkUpgradeActive (nHeight : ℤ) (idx : UpgradeIndex) : Bool :=
  if nHeight < 0 then false
  else if consensus.nActivationHeight idx = noActivationHeight then false
  else decide (consensus.nActivationHeight idx ≤ nHeight)

/-- An upgrade that is active stays active at every later height. -/
theorem networkUpgradeActive_mono {idx : UpgradeIndex} {h₁ h₂ : ℤ} (hle : h₁ ≤ h₂)
    (h : consensus.networkUpgradeActive h₁ idx = true) :
    consensus.networkUpgradeActive h₂ idx = true := by
  unfold networkUpgradeActive at h ⊢
  split at h
  · cases h
  · split at h
    · cases h
    · rename_i hneg hno
      rw [if_neg (by omega), if_neg hno]
      simp only [decide_eq_true_eq] at h ⊢
      omega

/-- `IsTimeProtocolV2`. -/
def isTimeProtocolV2 (nHeight : ℤ) : Bool := consensus.networkUpgradeActive nHeight .upgradePos

/-- `ProofOfStakeLimit`. -/
def proofOfStakeLimit (fV2 : Bool) : Uint256 :=
  if fV2 then consensus.posLimitV2 else consensus.posLimitV1

/-- `TargetTimespan`. -/
def targetTimespan (fV2 : Bool) : ℤ :=
  if fV2 then consensus.nTargetTimespanV2 else consensus.nTargetTimespan

/-- `FutureBlockTimeDrift`. -/
def futureBlockTimeDrift (_nHeight : ℤ) : ℤ := consensus.nTimeSlotLength - 1

/-- `IsValidBlockTimeStamp`. -/
def isValidBlockTimeStamp (nTime nHeight : ℤ) : Bool :=
  if !consensus.isTimeProtocolV2 nHeight then true
  else nTime.tmod consensus.nTimeSlotLength == 0

end Params

/-- `~UINT256_ZERO >> n`. -/
def limitShifted (n : ℕ) : Uint256 := (BaseUint.zero.not).shiftRight n

/-- `CMainParams`. -/
def mainParams : CChainParams where
  strNetworkID := .main
  consensus :=
    { hashGenesisBlock := BaseUint.ofNat
        0x00000013915f2172992e2827183965583a14188ffa198890351772f2c79cabb8
      powLimit := limitShifted 20
      posLimitV1 := limitShifted 24
      posLimitV2 := limitShifted 20
      nCoinbaseMaturity := 6
      nMaxMoneyOut := 100000000 * COIN
      nStakeMinDepth := 6
      nTargetTimespan := 40 * 60
      nTargetTimespanV2 := 30 * 60
      nTargetSpacing := 1 * 60
      nTimeSlotLength := 15
      nMinStakeValue := 300 * COIN
      heightLastInvalidUTXO := 2147483647
      nActivationHeight := fun
        | .baseNetwork => alwaysActive
        | .upgradeTestdummy => noActivationHeight
        | .upgradePos => 1000
        | .upgradeV5_0 => 1
        | .upgradeV6_0 => noActivationHeight }
  mapCheckpoints := [(0, BaseUint.ofNat 0x001)]

/-- `IsRegTestNet`. -/
def CChainParams.isRegTestNet (params : CChainParams) : Bool :=
  decide (params.strNetworkID = .regtest)

/-! ## The block subsidy

`GetBlockValue` of `validation.cpp` with the phases of `validation.h`, and what the whole
schedule emits. On the main network the subsidy is a step function of the height, so the
emission up to any height has a closed form.
-/

open Finset StepSum

/-- The heights of `enum POSPHASE`. -/
def posPhase : ℕ → ℤ
  | 0 => 115000
  | 1 => 143200
  | 2 => 402400
  | 3 => 661600
  | 4 => 920800
  | 5 => 1180000
  | 6 => 1439200
  | 7 => 1698400
  | 8 => 2216800
  | 9 => 3253600
  | 10 => 4290400
  | 11 => 5327200
  | 12 => 7400800
  | 13 => 11548000
  | _ => 41648320

/-- `GetBlockValue`. -/
def getBlockValue (params : CChainParams) (nHeight : ℤ) : ℤ :=
  if params.strNetworkID = .test then
    if nHeight < 51 ∧ nHeight > 0 then 250000 * COIN else 10000 * COIN
  else if params.isRegTestNet then
    if nHeight = 0 then 250 * COIN else 100 * COIN
  else if nHeight ≤ 100000 ∧ nHeight > 0 then 15 * COIN
  else if nHeight ≤ posPhase 0 ∧ nHeight > 100000 then 12 * COIN
  else if nHeight ≤ posPhase 1 ∧ nHeight > posPhase 0 then 10 * COIN
  else if nHeight ≤ posPhase 2 ∧ nHeight > posPhase 1 then 8 * COIN
  else if nHeight ≤ posPhase 3 ∧ nHeight > posPhase 2 then 7 * COIN
  else if nHeight ≤ posPhase 4 ∧ nHeight > posPhase 3 then 8 * COIN
  else if nHeight ≤ posPhase 5 ∧ nHeight > posPhase 4 then 9 * COIN
  else if nHeight ≤ posPhase 6 ∧ nHeight > posPhase 5 then 10 * COIN
  else if nHeight ≤ posPhase 7 ∧ nHeight > posPhase 6 then 9 * COIN
  else if nHeight ≤ posPhase 8 ∧ nHeight > posPhase 7 then 8 * COIN
  else if nHeight ≤ posPhase 9 ∧ nHeight > posPhase 8 then 7 * COIN
  else if nHeight ≤ posPhase 10 ∧ nHeight > posPhase 9 then 6 * COIN
  else if nHeight ≤ posPhase 11 ∧ nHeight > posPhase 10 then 5 * COIN
  else if nHeight ≤ posPhase 12 ∧ nHeight > posPhase 11 then 4 * COIN
  else if nHeight ≤ posPhase 13 ∧ nHeight > posPhase 12 then 3 * COIN
  else if nHeight ≤ posPhase 14 ∧ nHeight > posPhase 13 then 2 * COIN
  else 0 * COIN

theorem getBlockValue_nonneg (params : CChainParams) (nHeight : ℤ) :
    0 ≤ getBlockValue params nHeight := by
  refine ite_nonneg (ite_nonneg (by decide) (by decide)) ?_
  refine ite_nonneg (ite_nonneg (by decide) (by decide)) ?_
  -- the phases of the main network
  repeat refine ite_nonneg (by decide) ?_
  decide

/-- The main network's schedule as steps: the last height of each phase and its subsidy. -/
def mainSchedule : List (ℕ × ℤ) :=
  [(100000, 15 * COIN), (115000, 12 * COIN), (143200, 10 * COIN), (402400, 8 * COIN),
   (661600, 7 * COIN), (920800, 8 * COIN), (1180000, 9 * COIN), (1439200, 10 * COIN),
   (1698400, 9 * COIN), (2216800, 8 * COIN), (3253600, 7 * COIN), (4290400, 6 * COIN),
   (5327200, 5 * COIN), (7400800, 4 * COIN), (11548000, 3 * COIN), (41648320, 2 * COIN)]

theorem mainSchedule_increasing : StepSum.Increasing 0 mainSchedule := by decide

theorem mainSchedule_nonneg : ∀ s ∈ mainSchedule, 0 ≤ s.2 := by decide

/-- One test of the chain: above the previous phase its lower bound always holds. -/
theorem phase_test {h : ℕ} {lo hi : ℤ} {top : ℕ} {r x y : ℤ} (hlo : lo < h) (htop : hi = top)
    (hnext : top < h → x = y) :
    (if (h : ℤ) ≤ hi ∧ (h : ℤ) > lo then r else x) = if h ≤ top then r else y := by
  by_cases hle : h ≤ top
  · rw [if_pos ⟨by omega, hlo⟩, if_pos hle]
  · rw [if_neg (by omega), if_neg hle, hnext (by omega)]

/-- **The chain of height tests is the step function.** -/
theorem getBlockValue_eq_rate {h : ℕ} (hpos : 0 < h) :
    getBlockValue mainParams h = rate mainSchedule h := by
  simp only [getBlockValue, posPhase]
  iterate 16 refine phase_test (by omega) rfl fun _ => ?_
  exact Int.zero_mul COIN

/-- What the schedule emits in the blocks `1 .. N`. -/
theorem emission_eq_total (N : ℕ) :
    ∑ h ∈ Icc 1 N, getBlockValue mainParams (h : ℤ) = total 0 mainSchedule N := by
  rw [← sum_rate_eq_total mainSchedule_increasing]
  refine sum_congr ?_ fun h hh => ?_
  · ext k; simp only [mem_Icc, mem_Ioc]; omega
  · exact getBlockValue_eq_rate (mem_Ioc.mp hh).1

/-- The emission never falls as the chain grows. -/
theorem emission_mono {M N : ℕ} (hMN : M ≤ N) :
    total 0 mainSchedule M ≤ total 0 mainSchedule N := by
  rw [← sum_rate_eq_total mainSchedule_increasing, ← sum_rate_eq_total mainSchedule_increasing]
  exact sum_rate_mono mainSchedule_nonneg hMN

/-- **The schedule crosses the money range in its last phase.** The emission up to height
`N` stays within `nMaxMoneyOut` exactly up to height 32184600; the remaining 9463720
subsidised blocks lift it to 118927440 coins. -/
theorem emission_le_nMaxMoneyOut_iff (N : ℕ) :
    ∑ h ∈ Icc 1 N, getBlockValue mainParams (h : ℤ) ≤ mainParams.consensus.nMaxMoneyOut
      ↔ N ≤ 32184600 := by
  rw [emission_eq_total]
  have hcap : mainParams.consensus.nMaxMoneyOut = 100000000 * COIN := rfl
  constructor
  · intro h
    by_contra hN
    have hmono := emission_mono (show 32184601 ≤ N by omega)
    have := le_trans hmono (hcap ▸ h)
    exact absurd this (by decide)
  · intro hN
    have hmono := emission_mono hN
    exact hmono

/-- One block later the schedule has emitted more than an amount may hold. -/
theorem emission_exceeds_nMaxMoneyOut :
    ¬ ∀ N : ℕ, 1 ≤ N →
      ∑ h ∈ Icc 1 N, getBlockValue mainParams (h : ℤ) ≤ mainParams.consensus.nMaxMoneyOut := by
  intro hall
  have h := hall 32184601 (by norm_num)
  rw [emission_eq_total] at h
  exact absurd h (by decide)

end Passion
