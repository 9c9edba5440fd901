import Passion.Chain.IndexChecks
import Passion.Common.Stateful
import Passion.Consensus.Targets

/-!
# The two retargeting rules of the main network

In proof of stake the target of the last block is scaled by its spacing; in proof of work a
running average over the last 24 targets is scaled by the time they took. With targets below
the limits no product leaves 256 bits, although the factors are cut to 32 bits: both rules
compute what the formulas say in unbounded integers.
-/

namespace Passion

open BaseUint List PastBlocks CBlockIndex

/-! ## Exact steps -/

theorem toNat_toUInt32 {n : ℤ} (hlo : 0 ≤ n) (hhi : n < 2 ^ 32) : (toUInt32 n).toNat = n.toNat := by
  have hmod : n % 2 ^ 32 = n := Int.emod_eq_of_lt hlo hhi
  rw [toUInt32, hmod]
  exact Nat.mod_eq_of_lt (by omega)

theorem divide_eq (a : Uint256) {n : ℤ} (hlo : 0 < n) (hhi : n < 2 ^ 64) :
    ∃ q, divide a n = .ok q ∧ q.toNat = a.toNat / n.toNat := by
  have hmod : n % 2 ^ 64 = n := Int.emod_eq_of_lt hlo.le hhi
  have hn : (toUint256 n).toNat = n.toNat := by
    rw [toUint256, hmod, toNat_ofNat]
    exact Nat.mod_eq_of_lt (by omega)
  obtain ⟨q, hq, hval⟩ := div_eq_some (b := toUint256 n) (by omega)
  exact ⟨q, by rw [divide, hq], by rw [hval, hn]⟩

/-- A product that fits is exact. -/
theorem toNat_scaled {a : Uint256} {n : ℤ} (hlo : 0 ≤ n) (hhi : n < 2 ^ 32)
    (hfit : a.toNat * n.toNat < 2 ^ 256) :
    (a.mulUInt32 (toUInt32 n)).toNat = a.toNat * n.toNat := by
  rw [toNat_mulUInt32, toNat_toUInt32 hlo hhi]
  exact Nat.mod_eq_of_lt hfit

/-- The limit of both rules. -/
theorem toNat_limitShifted : (limitShifted 20).toNat = 2 ^ 236 - 1 := by decide +kernel

theorem networkUpgradeActive_pos (nHeight : ℤ) :
    mainParams.consensus.networkUpgradeActive nHeight .upgradePos = decide (1000 ≤ nHeight) := by
  unfold Params.networkUpgradeActive
  by_cases hneg : nHeight < 0
  · rw [if_pos hneg, eq_comm, decide_eq_false_iff_not]
    omega
  · rw [if_neg hneg]
    rfl

variable {m : BlockMap}

/-- The rule that is used from height 24 on. -/
theorem getNextWorkRequired_main {pindexLast : CBlockIndex} (hheight : 24 ≤ pindexLast.nHeight) :
    getNextWorkRequired mainParams m pindexLast =
      if 1000 ≤ pindexLast.nHeight + 1 then getNextTargetRequired mainParams.consensus m pindexLast
      else getNextWorkAverage mainParams.consensus m pindexLast := by
  have hsmall : (decide (pindexLast.nHeight = 0) || decide (pindexLast.nHeight < 24)) = false := by
    rw [Bool.or_eq_false_iff, decide_eq_false_iff_not, decide_eq_false_iff_not]
    omega
  simp only [getNextWorkRequired, hsmall, networkUpgradeActive_pos, decide_eq_true_eq]
  exact if_neg (by decide)

/-! ## Proof of stake -/

/-- The spacing of the last block as the rule takes it: 1 where it is negative, and not more
than ten times the target. -/
def stakeSpacing (nSpacing : ℤ) : ℤ := if nSpacing < 0 then 1 else min nSpacing 600

/-- The target that is scaled. -/
def stakeTarget (pindexLast : CBlockIndex) : Uint256 :=
  let bnOld := (setCompact pindexLast.nBits).value
  if pindexLast.nHeight + 1 = 1000 then bnOld.shiftLeft 4 else bnOld

/-- The rule with the constants of the main network. -/
theorem getNextTargetRequired_main {pindexLast pprev : CBlockIndex} {s : ℤ}
    (hheight : 1000 ≤ pindexLast.nHeight + 1) (hprev : pindexLast.prev m = some pprev)
    (hs : stakeSpacing (pindexLast.getBlockTime - pprev.getBlockTime) = s) :
    getNextTargetRequired mainParams.consensus m pindexLast =
      (divide ((stakeTarget pindexLast).mulUInt32 (toUInt32 (1740 + s + s))) 1860).bind fun bnNew =>
      .ok (getCompact (if bnNew.isNull || bnNew.gt (limitShifted 20) then limitShifted 20
        else bnNew)) := by
  have hv2 : mainParams.consensus.isTimeProtocolV2 (pindexLast.nHeight + 1) = true := by
    rwa [Params.isTimeProtocolV2, networkUpgradeActive_pos, decide_eq_true_eq]
  have hfirst : (!mainParams.consensus.isTimeProtocolV2 pindexLast.nHeight) =
      decide (pindexLast.nHeight + 1 = 1000) := by
    rw [Params.isTimeProtocolV2, networkUpgradeActive_pos, ← decide_not, decide_eq_decide]
    omega
  have hclamp : ∀ d : ℤ, (if decide ((if d < 0 then 1 else d) > 60 * 10) = true then 60 * 10
      else if d < 0 then 1 else d) = stakeSpacing d := by
    intro d
    simp only [decide_eq_true_eq, stakeSpacing]
    split <;> split <;> omega
  have hspacing : mainParams.consensus.nTargetSpacing = 60 := rfl
  simp only [getNextTargetRequired, hprev, hv2, hfirst, hspacing, Bool.true_and, hclamp, hs]
  simp only [decide_eq_true_eq]
  rfl

/-- **Retargeting in proof of stake is exact.** Where the next block is one of proof of stake,
the new target is the old one (16 times the old one after the last proof-of-work block) times
`1740 + 2 * spacing` over `1860`, cut at the limit; the product does not overflow. -/
theorem getNextWorkRequired_stake {m : BlockMap} {pindexLast pprev : CBlockIndex} {T : ℕ}
    (hheight : 24 ≤ pindexLast.nHeight)
    (hstake : mainParams.consensus.networkUpgradeActive (pindexLast.nHeight + 1) .upgradePos = true)
    (hprev : pindexLast.prev m = some pprev)
    (hT : (setCompact pindexLast.nBits).value.toNat = T) (hpos : 0 < T) (hlimit : T ≤ 2 ^ 236 - 1) :
    let s := (stakeSpacing (pindexLast.getBlockTime - pprev.getBlockTime)).toNat
    let T' := if pindexLast.nHeight + 1 = 1000 then 16 * T else T
    let q := T' * (1740 + 2 * s) / 1860
    let posLimitV2 := mainParams.consensus.posLimitV2.toNat
    T' * (1740 + 2 * s) < 2 ^ 256 ∧
      getNextWorkRequired mainParams m pindexLast =
        .ok (getCompact (BaseUint.ofNat (if q = 0 then posLimitV2 else min posLimitV2 q))) := by
  intro s T' q posLimitV2
  rw [networkUpgradeActive_pos, decide_eq_true_eq] at hstake
  obtain ⟨d, hd⟩ : ∃ d, stakeSpacing (pindexLast.getBlockTime - pprev.getBlockTime) = d := ⟨_, rfl⟩
  have hrange : 0 ≤ d ∧ d ≤ 600 := by
    rw [← hd, stakeSpacing]
    split <;> omega
  have hT' : (stakeTarget pindexLast).toNat = T' ∧ T' ≤ 16 * (2 ^ 236 - 1) := by
    simp only [stakeTarget, T']
    split
    · rw [toNat_shiftLeft]
      omega
    · omega
  have hfactor : (1740 + d + d).toNat = 1740 + 2 * s := by omega
  have hfit : T' * (1740 + 2 * s) < 2 ^ 256 :=
    calc T' * (1740 + 2 * s) ≤ 16 * (2 ^ 236 - 1) * (1740 + 2 * 600) :=
          Nat.mul_le_mul hT'.2 (by omega)
      _ < 2 ^ 256 := by norm_num
  have hscaled := toNat_scaled (n := 1740 + d + d) (by omega) (by omega) (by rwa [hT'.1, hfactor])
  obtain ⟨bnNew, hdiv, hval⟩ := divide_eq
    ((stakeTarget pindexLast).mulUInt32 (toUInt32 (1740 + d + d))) (n := 1860) (by norm_num)
    (by norm_num)
  rw [hscaled, hT'.1, hfactor] at hval
  refine ⟨hfit, ?_⟩
  rw [getNextWorkRequired_main hheight, if_pos hstake, getNextTargetRequired_main hstake hprev hd,
    hdiv]
  refine congrArg (fun x => Except.ok (getCompact x)) (toNat_injective ?_)
  have hmax : posLimitV2 = 2 ^ 236 - 1 := toNat_limitShifted
  have hq : q = bnNew.toNat := hval.symm
  rw [toNat_ofNat, hq, hmax]
  by_cases hnull : bnNew.toNat = 0
  · rw [(isNull_iff bnNew).mpr hnull, if_pos hnull]
    exact toNat_limitShifted
  · have hnot : bnNew.isNull = false := by
      rwa [← Bool.not_eq_true, isNull_iff]
    rw [hnot, Bool.false_or, if_neg hnull]
    by_cases hgt : bnNew.gt (limitShifted 20) = true
    · rw [if_pos hgt]
      rw [gt_iff, toNat_limitShifted] at hgt
      rw [Nat.min_eq_left hgt.le]
      rfl
    · rw [if_neg hgt]
      rw [gt_iff, toNat_limitShifted] at hgt
      omega

/-- A block of a sample chain with the target of the genesis block. -/
def minedEntry (n : ℕ) : CBlockIndex :=
  { ChainIndex.forkEntry n (if n = 0 then none else some (n - 1)) n 0 0 .none with
    nTime := 60 * UInt32.ofNat n
    nBits := 0x1e0ffff0 }

/-- A chain of `n` blocks. -/
def minedChain (n : ℕ) : BlockMap :=
  (List.range n).foldl (fun m i => m.insert (BaseUint.ofNat i) (minedEntry i)) ∅

/-- The first proof-of-stake block of a chain with blocks on time: its target is at the limit. -/
theorem getNextWorkRequired_stake_first :
    (setCompact (minedEntry 999).nBits).value.toNat ≤ 2 ^ 236 - 1 ∧
      getNextWorkRequired mainParams (AList.insert (BaseUint.ofNat 998) (minedEntry 998) ∅)
        (minedEntry 999) = .ok 0x1e0fffff := by
  have hprev : (minedEntry 999).prev (AList.insert (ofNat 998) (minedEntry 998) ∅) =
      some (minedEntry 998) := by decide +kernel
  refine ⟨by decide +kernel, (getNextWorkRequired_stake (by decide) (by decide +kernel) hprev rfl
    (by decide +kernel) (by decide +kernel)).2.trans ?_⟩
  decide +kernel

/-! ## Proof of work -/

/-- The target `SetCompact` reads. -/
def CBlockIndex.target (p : CBlockIndex) : ℕ := (setCompact p.nBits).value.toNat

/-- What follows the loop, up to the encoding. -/
def PastBlocks.newTarget (consensus : Params) (s : PastBlocks) : Result Uint256 :=
  let nTargetTimespan := s.countBlocks * consensus.nTargetSpacing
  let lower := nTargetTimespan.tdiv 3
  let upper := nTargetTimespan * 3
  let raised := if s.nActualTimespan < lower then lower else s.nActualTimespan
  let nActualTimespan := if raised > upper then upper else raised
  (divide (s.pastDifficultyAverage.mulUInt32 (toUInt32 nActualTimespan)) nTargetTimespan).bind
    fun bnNew => .ok (if bnNew.gt consensus.powLimit then consensus.powLimit else bnNew)

/-- The branch for proof of work, cut at the new target. -/
theorem getNextWorkAverage_eq (consensus : Params) (m : BlockMap) (pindexLast : CBlockIndex) :
    getNextWorkAverage consensus m pindexLast =
      (((pindexLast.walkBack m 23).takeWhile (fun p => decide (p.nHeight > 0))).foldlM
        read ⟨0, BaseUint.zero, 0, 0⟩).bind fun s =>
      (s.newTarget consensus).bind fun bnNew => .ok (getCompact bnNew) := by
  simp [getNextWorkAverage, newTarget, Except.bind_bind, Except.ok_bind]

/-- The body of the loop in unbounded integers: the number of targets and their average. There
is no next value where one of 256 bits would overflow. -/
def averageStep (s : ℕ × ℕ) (target : ℕ) : Option (ℕ × ℕ) :=
  let count := s.1 + 1
  if count = 1 then some (1, target)
  else if s.2 * count + target < 2 ^ 256 then some (count, (s.2 * count + target) / (count + 1))
  else none

/-- The new average lies between the old one and the target. -/
theorem average_between {a target n lo hi : ℕ} (ha : lo ≤ a ∧ a ≤ hi) (ht : lo ≤ target ∧ target ≤ hi) :
    lo ≤ (a * (n + 1) + target) / (n + 1 + 1) ∧ (a * (n + 1) + target) / (n + 1 + 1) ≤ hi := by
  have hlower : lo * (n + 1) ≤ a * (n + 1) := Nat.mul_le_mul_right _ ha.1
  have hupper : a * (n + 1) ≤ hi * (n + 1) := Nat.mul_le_mul_right _ ha.2
  constructor
  · rw [Nat.le_div_iff_mul_le (by omega), Nat.mul_succ]
    omega
  · refine Nat.div_le_of_le_mul ?_
    rw [Nat.succ_mul, Nat.mul_comm (n + 1) hi]
    omega

/-- **One block of the loop.** -/
theorem PastBlocks.read_eq {s : PastBlocks} {n : ℕ} (b : CBlockIndex) (hcount : s.countBlocks = n)
    (hn : n < 24) (ha : s.pastDifficultyAverage.toNat ≤ 2 ^ 236 - 1) (hb : b.target ≤ 2 ^ 236 - 1) :
    ∃ t, s.read b = .ok t ∧ t.countBlocks = (n + 1 : ℕ) ∧
      averageStep (n, s.pastDifficultyAverage.toNat) b.target =
        some (n + 1, t.pastDifficultyAverage.toNat) ∧
      ∀ lo hi, lo ≤ b.target ∧ b.target ≤ hi →
        (n ≠ 0 → lo ≤ s.pastDifficultyAverage.toNat ∧ s.pastDifficultyAverage.toNat ≤ hi) →
        lo ≤ t.pastDifficultyAverage.toNat ∧ t.pastDifficultyAverage.toNat ≤ hi := by
  unfold read averageStep
  rcases Nat.eq_zero_or_pos n with rfl | hpos
  · simp only [hcount]
    exact ⟨_, rfl, rfl, rfl, fun lo hi ht _ => ht⟩
  · have hlater : ¬ ((n : ℤ) + 1 = 1) ∧ ¬ (n + 1 = 1) := by omega
    simp only [hcount, if_neg hlater.1, if_neg hlater.2]
    generalize s.pastDifficultyAverage = a at ha ⊢
    have hprod : a.toNat * (n + 1) ≤ (2 ^ 236 - 1) * 24 := Nat.mul_le_mul ha (by omega)
    have hscaled : (a.mulUInt32 (toUInt32 (n + 1))).toNat = a.toNat * (n + 1) :=
      toNat_scaled (by omega) (by omega) (lt_of_le_of_lt hprod (by norm_num))
    have hsum : ((a.mulUInt32 (toUInt32 (n + 1))).add (setCompact b.nBits).value).toNat =
        a.toNat * (n + 1) + b.target := by
      rw [toNat_add, hscaled]
      exact Nat.mod_eq_of_lt (by unfold target at *; omega)
    obtain ⟨q, hdiv, hval⟩ := divide_eq
      ((a.mulUInt32 (toUInt32 (n + 1))).add (setCompact b.nBits).value) (n := n + 1 + 1) (by omega)
      (by omega)
    rw [hsum, show ((n : ℤ) + 1 + 1).toNat = n + 1 + 1 by omega] at hval
    refine ⟨_, by rw [hdiv]; rfl, by push_cast; rfl, ?_, fun lo hi ht hs => ?_⟩
    · rw [if_pos (by omega), hval]
    · simp only [hval]
      exact average_between (hs (by omega)) ht

/-- **The loop** over at most 24 blocks with targets below the limit. -/
theorem foldlM_read {blocks : List CBlockIndex} (hlen : blocks.length ≤ 24)
    (hlimit : ∀ b ∈ blocks, b.target ≤ 2 ^ 236 - 1) :
    ∃ s, blocks.foldlM read ⟨0, BaseUint.zero, 0, 0⟩ = .ok s ∧
      s.countBlocks = blocks.length ∧
      (blocks.map target).foldlM averageStep (0, 0) =
        some (blocks.length, s.pastDifficultyAverage.toNat) ∧
      ∀ lo hi, (∀ b ∈ blocks, lo ≤ b.target ∧ b.target ≤ hi) → blocks ≠ [] →
        lo ≤ s.pastDifficultyAverage.toNat ∧ s.pastDifficultyAverage.toNat ≤ hi := by
  induction blocks using reverseRecOn with
  | nil => exact ⟨_, rfl, rfl, rfl, fun _ _ _ h => absurd rfl h⟩
  | append_singleton blocks b ih =>
    rw [length_append, length_singleton] at hlen ⊢
    obtain ⟨s, hs, hcount, havg, hbounds⟩ := ih (by omega) fun c hc => hlimit c (by simp [hc])
    have ha : s.pastDifficultyAverage.toNat ≤ 2 ^ 236 - 1 := by
      cases blocks with
      | nil =>
        cases hs
        simp
      | cons c blocks =>
        exact (hbounds 0 _ (fun d hd => ⟨Nat.zero_le _, hlimit d (mem_append_left _ hd)⟩)
          (cons_ne_nil c blocks)).2
    obtain ⟨t, ht, htcount, htavg, htbounds⟩ :=
      read_eq b hcount (by omega) ha (hlimit b (by simp))
    refine ⟨t, ?_, htcount, ?_, fun lo hi hall _ => ?_⟩
    · rw [foldlM_append, hs]
      exact (bind_pure _).trans ht
    · rw [map_append, foldlM_append, havg]
      exact (bind_pure _).trans htavg
    · refine htbounds lo hi (hall b (by simp)) fun hne => ?_
      exact hbounds lo hi (fun c hc => hall c (by simp [hc])) (ne_nil_of_length_pos (by omega))

/-- Walking back from height `n` or above meets `n + 1` blocks, each the parent of the one
before. -/
theorem walkBack_spec (hm : m.IsTree) {hash : Uint256} {p : CBlockIndex} {n : ℕ}
    (hp : m.lookup hash = some p) (hn : (n : ℤ) ≤ p.nHeight) :
    (p.walkBack m n).length = n + 1 ∧ ∀ b ∈ p.walkBack m n, p.nHeight - n ≤ b.nHeight := by
  induction n generalizing hash p with
  | zero => simp [walkBack]
  | succ n ih =>
    have hroot : p.pprev ≠ none := fun hnone => by
      have hzero := hm.root hp hnone
      omega
    obtain ⟨g, hg⟩ := Option.ne_none_iff_exists'.mp hroot
    obtain ⟨q, hq, hheight⟩ := hm.parent hp hg
    obtain ⟨hlen, hge⟩ := ih hq (by omega)
    have hprev : p.prev m = some q := by rw [CBlockIndex.prev, hg, Option.bind_some, hq]
    rw [walkBack, hprev]
    refine ⟨by simp [hlen], fun b hb => ?_⟩
    rcases mem_cons.mp hb with rfl | hb
    · omega
    · have hle := hge b hb
      omega

/-- The new target after 24 blocks: the average is scaled by a factor between a third and
three. -/
theorem newTarget_main {s : PastBlocks} (hcount : s.countBlocks = 24)
    (ha : s.pastDifficultyAverage.toNat ≤ 2 ^ 236 - 1) :
    ∃ k bnNew, 480 ≤ k ∧ k ≤ 4320 ∧ s.pastDifficultyAverage.toNat * k < 2 ^ 256 ∧
      s.newTarget mainParams.consensus = .ok bnNew ∧
      bnNew.toNat = min (2 ^ 236 - 1) (s.pastDifficultyAverage.toNat * k / 1440) := by
  have hspacing : s.countBlocks * mainParams.consensus.nTargetSpacing = 1440 := by
    rw [hcount]
    rfl
  obtain ⟨k, hk, hlo, hhi⟩ : ∃ k : ℤ, (if (if s.nActualTimespan < 480 then 480 else
      s.nActualTimespan) > 4320 then 4320 else if s.nActualTimespan < 480 then 480 else
      s.nActualTimespan) = k ∧ 480 ≤ k ∧ k ≤ 4320 := by
    refine ⟨_, rfl, ?_⟩
    split <;> split <;> omega
  have hfit : s.pastDifficultyAverage.toNat * k.toNat < 2 ^ 256 :=
    calc s.pastDifficultyAverage.toNat * k.toNat ≤ (2 ^ 236 - 1) * 4320 :=
          Nat.mul_le_mul ha (by omega)
      _ < 2 ^ 256 := by norm_num
  have hscaled := toNat_scaled (by omega) (by omega) hfit
  obtain ⟨q, hdiv, hval⟩ := divide_eq (s.pastDifficultyAverage.mulUInt32 (toUInt32 k)) (n := 1440)
    (by norm_num) (by norm_num)
  rw [hscaled] at hval
  refine ⟨k.toNat, if q.gt (limitShifted 20) then limitShifted 20 else q, by omega, by omega, hfit,
    ?_, ?_⟩
  · simp only [newTarget, hspacing, show (1440 : ℤ).tdiv 3 = 480 from rfl,
      show (1440 : ℤ) * 3 = 4320 from rfl, hk, hdiv]
    rfl
  · have hq : q.toNat = s.pastDifficultyAverage.toNat * k.toNat / 1440 := hval
    by_cases hgt : q.gt (limitShifted 20) = true
    · rw [if_pos hgt, toNat_limitShifted]
      rw [gt_iff, toNat_limitShifted] at hgt
      omega
    · rw [if_neg hgt]
      rw [gt_iff, toNat_limitShifted] at hgt
      omega

/-- **Retargeting in proof of work stays within a factor of three.** After 24 blocks with targets
up to the limit, the average lies between any bounds of those targets, and the new target
between a third and three times the average, and not above the limit. The loop is the one in
unbounded integers, and the last product does not overflow either. -/
theorem getNextWorkRequired_work {m : BlockMap} (hm : m.IsTree) {pindexLast : CBlockIndex}
    (hlast : m.lookup pindexLast.hashBlock = some pindexLast) (hheight : 24 ≤ pindexLast.nHeight)
    (hwork : mainParams.consensus.networkUpgradeActive (pindexLast.nHeight + 1) .upgradePos = false)
    (htargets : ∀ b ∈ pindexLast.walkBack m 23,
      0 < b.target ∧ b.target ≤ mainParams.consensus.powLimit.toNat) :
    ∃ s bnNew k, (pindexLast.walkBack m 23).foldlM PastBlocks.read ⟨0, BaseUint.zero, 0, 0⟩ = .ok s ∧
      s.newTarget mainParams.consensus = .ok bnNew ∧
      getNextWorkRequired mainParams m pindexLast = .ok (getCompact bnNew) ∧
      ((pindexLast.walkBack m 23).map CBlockIndex.target).foldlM averageStep (0, 0) =
        some (24, s.pastDifficultyAverage.toNat) ∧
      s.pastDifficultyAverage.toNat * k < 2 ^ 256 ∧
      bnNew.toNat = min mainParams.consensus.powLimit.toNat
        (s.pastDifficultyAverage.toNat * k / 1440) ∧
      (∀ lo hi, (∀ b ∈ pindexLast.walkBack m 23, lo ≤ b.target ∧ b.target ≤ hi) →
        lo ≤ s.pastDifficultyAverage.toNat ∧ s.pastDifficultyAverage.toNat ≤ hi) ∧
      s.pastDifficultyAverage.toNat / 3 ≤ bnNew.toNat ∧
      bnNew.toNat ≤ min (3 * s.pastDifficultyAverage.toNat)
        mainParams.consensus.powLimit.toNat := by
  have hlimit : mainParams.consensus.powLimit.toNat = 2 ^ 236 - 1 := toNat_limitShifted
  rw [hlimit] at htargets ⊢
  obtain ⟨hlen, hge⟩ := walkBack_spec hm hlast (n := 23) (by omega)
  have hne : pindexLast.walkBack m 23 ≠ [] := ne_nil_of_length_pos (by omega)
  have hall : (pindexLast.walkBack m 23).takeWhile (fun p => decide (p.nHeight > 0)) =
      pindexLast.walkBack m 23 := by
    refine takeWhile_eq_self_iff.mpr fun b hb => ?_
    have hle := hge b hb
    exact decide_eq_true (by omega)
  obtain ⟨s, hs, hcount, havg, hbounds⟩ := foldlM_read (by omega) fun b hb => (htargets b hb).2
  rw [hlen] at hcount havg
  have ha := (hbounds 0 _ (fun b hb => ⟨Nat.zero_le _, (htargets b hb).2⟩) hne).2
  obtain ⟨k, bnNew, hlo, hhi, hfit, hnew, hval⟩ := newTarget_main hcount ha
  have hthird : s.pastDifficultyAverage.toNat * 480 ≤ s.pastDifficultyAverage.toNat * k :=
    Nat.mul_le_mul_left _ hlo
  have hthree : s.pastDifficultyAverage.toNat * k ≤ s.pastDifficultyAverage.toNat * 4320 :=
    Nat.mul_le_mul_left _ hhi
  refine ⟨s, bnNew, k, hs, hnew, ?_, havg, hfit, hval, fun lo hi h => hbounds lo hi h hne, ?_, ?_⟩
  · rw [networkUpgradeActive_pos, decide_eq_false_iff_not] at hwork
    rw [getNextWorkRequired_main hheight, if_neg hwork]
    rw [getNextWorkAverage_eq, hall, hs]
    simp only [Except.bind, hnew]
  · rw [hval]
    omega
  · rw [hval]
    omega

/-- Blocks on time leave the target as it is, but for the rounding of the average. -/
theorem getNextWorkRequired_work_steady :
    (minedChain 31).IsTree ∧ ∃ s bnNew,
      ((minedEntry 30).walkBack (minedChain 31) 23).foldlM PastBlocks.read ⟨0, BaseUint.zero, 0, 0⟩ =
        .ok s ∧ s.newTarget mainParams.consensus = .ok bnNew ∧
      s.pastDifficultyAverage.toNat / 3 ≤ bnNew.toNat ∧
      bnNew.toNat ≤ min (3 * s.pastDifficultyAverage.toNat)
        mainParams.consensus.powLimit.toNat := by
  have htree : (minedChain 31).IsTree := by decide +kernel
  have hlast : (minedChain 31).lookup (minedEntry 30).hashBlock = some (minedEntry 30) := by
    decide +kernel
  obtain ⟨s, bnNew, -, hs, hnew, -, -, -, -, -, hlo, hhi⟩ :=
    getNextWorkRequired_work htree hlast (by decide) (by decide +kernel) (by decide +kernel)
  exact ⟨htree, s, bnNew, hs, hnew, hlo, hhi⟩

end Passion
