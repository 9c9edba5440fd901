import Passion.Chain.BlockTree

/-!
# The stake kernel

`CStakeKernel` of `kernel.cpp`: the message that is hashed for a proof of stake, and the test of its
hash against the target weighted by the staked value.

The rule the test stands for is a comparison of integers. The code multiplies the target and the
weight as `uint256`s, and that product wraps.
-/

namespace Passion

open BaseUint

/-- `CPivStake`: the staked output, its outpoint and the block it comes from. -/
structure CPivStake where
  outputFrom : CTxOut
  outpointFrom : COutPoint
  pindexFrom : CBlockIndex

namespace CPivStake

/-- `GetUniqueness`. -/
def getUniqueness (stake : CPivStake) : Bytes :=
  Bytes.ofNatLE 4 stake.outpointFrom.n.toNat ++ stake.outpointFrom.hash.toBytes

/-- `GetValue`. -/
def getValue (stake : CPivStake) : ℤ := stake.outputFrom.nValue

end CPivStake

/-- `CStakeKernel`. The two times are `int`s in the source; only their four bytes are used. -/
structure CStakeKernel where
  stakeModifier : Bytes
  nTimeBlockFrom : UInt32
  stakeUniqueness : Bytes
  nTime : UInt32
  nBits : UInt32
  stakeValue : ℤ

namespace CStakeKernel

/-- The constructor. -/
def ofStake (pindexPrev : CBlockIndex) (stakeInput : CPivStake) (nBits nTimeTx : UInt32) :
    CStakeKernel where
  stakeModifier := pindexPrev.getStakeModifierV2.toBytes
  nTimeBlockFrom := stakeInput.pindexFrom.nTime
  stakeUniqueness := stakeInput.getUniqueness
  nTime := nTimeTx
  nBits := nBits
  stakeValue := stakeInput.getValue

/-- `GetHash`. -/
def getHash (H : Hashing) (kernel : CStakeKernel) : Uint256 :=
  H.hash (kernel.stakeModifier ++ Bytes.ofNatLE 4 kernel.nTimeBlockFrom.toNat ++
    kernel.stakeUniqueness ++ Bytes.ofNatLE 4 kernel.nTime.toNat)

/-- `uint256(stakeValue) / 100`; the conversion goes through `uint64_t`, and the divisor is
not zero, so the division is defined. -/
def stakeWeight (stakeValue : ℤ) : Uint256 :=
  ((BaseUint.ofNat (stakeValue % 2 ^ 64).toNat : Uint256).div (BaseUint.ofNat 100)).getD
    BaseUint.zero

/-- The weight of a value in range is the integer quotient. -/
theorem stakeWeight_toNat {v : ℤ} (h0 : 0 ≤ v) (h64 : v < 2 ^ 64) :
    (stakeWeight v).toNat = v.toNat / 100 := by
  have hmod : (v % 2 ^ 64).toNat = v.toNat := by rw [Int.emod_eq_of_lt h0 h64]
  have hlt : v.toNat < 2 ^ (32 * 8) := by
    have : v.toNat < 2 ^ 64 := by omega
    exact lt_trans this (by norm_num)
  obtain ⟨q, hq, hval⟩ := div_eq_some (a := (ofNat v.toNat : Uint256)) (b := ofNat 100) (by simp)
  rw [stakeWeight, hmod, hq, Option.getD_some, hval, toNat_ofNat, toNat_ofNat, Nat.mod_eq_of_lt hlt,
    Nat.mod_eq_of_lt (show 100 < 2 ^ (32 * 8) by norm_num)]

/-- `CheckKernelHash`. -/
def checkKernelHash (H : Hashing) (params : CChainParams) (kernel : CStakeKernel) : Bool :=
  let bnTarget := (setCompact kernel.nBits).value.mul (stakeWeight kernel.stakeValue)
  (kernel.getHash H).lt bnTarget && decide (kernel.stakeValue > params.consensus.nMinStakeValue)

/-- The test as the code computes it, in numbers: the weighted target is reduced modulo
`2 ^ 256`. -/
theorem checkKernelHash_iff {H : Hashing} {params : CChainParams} {kernel : CStakeKernel}
    (h0 : 0 ≤ kernel.stakeValue) (h64 : kernel.stakeValue < 2 ^ 64) :
    kernel.checkKernelHash H params = true ↔
      params.consensus.nMinStakeValue < kernel.stakeValue ∧
      (kernel.getHash H).toNat <
        (setCompact kernel.nBits).value.toNat * (kernel.stakeValue.toNat / 100) % 2 ^ 256 := by
  rw [checkKernelHash, Bool.and_eq_true, lt_iff, toNat_mul, stakeWeight_toNat h0 h64,
    decide_eq_true_eq]
  exact and_comm

/-! ## The exact rule -/

/-- The rule for a target and a value: the kernel is accepted exactly when the value may
stake and the hash is below the unbounded product of target and weight. -/
def FollowsRule (params : CChainParams) (nBits : UInt32) (v : ℤ) : Prop :=
  ∀ (H : Hashing) (kernel : CStakeKernel), kernel.nBits = nBits → kernel.stakeValue = v →
    (kernel.checkKernelHash H params = true ↔
      params.consensus.nMinStakeValue < v ∧
        (kernel.getHash H).toNat < compactTarget nBits * (v.toNat / 100))

/-- With one hash and one target, whatever is accepted with the value `v` is accepted with the
value `v'`. -/
def AcceptsMore (params : CChainParams) (nBits : UInt32) (v v' : ℤ) : Prop :=
  ∀ (H : Hashing) (small large : CStakeKernel), small.nBits = nBits → large.nBits = nBits →
    small.getHash H = large.getHash H → small.stakeValue = v → large.stakeValue = v' →
    small.checkKernelHash H params = true → large.checkKernelHash H params = true

/-- The value may not stake, or the product of target and weight fits into 256 bits. -/
def ProductFits (params : CChainParams) (nBits : UInt32) (v : ℤ) : Prop :=
  v ≤ params.consensus.nMinStakeValue ∨ compactTarget nBits * (v.toNat / 100) < 2 ^ 256

variable {params : CChainParams} {nBits : UInt32} {v v' : ℤ}

theorem weighted_le (hle : v ≤ v') :
    compactTarget nBits * (v.toNat / 100) ≤ compactTarget nBits * (v'.toNat / 100) :=
  Nat.mul_le_mul_left _ (Nat.div_le_div_right (by omega))

theorem ProductFits.mono (h : ProductFits params nBits v') (hle : v ≤ v') :
    ProductFits params nBits v :=
  h.imp (fun hmin => hle.trans hmin) (weighted_le hle).trans_lt

section

variable (hov : (setCompact nBits).fOverflow = false)

include hov

/-- Below the wrap, and for values that may not stake, the code follows the rule. -/
theorem ProductFits.followsRule (h : ProductFits params nBits v) (h0 : 0 ≤ v) (h64 : v < 2 ^ 64) :
    FollowsRule params nBits v := by
  intro H kernel hbits hv
  rw [checkKernelHash_iff (by omega) (by omega), hbits, hv, setCompact_toNat hov]
  rcases h with hmin | hlt
  · exact ⟨fun hc => absurd hc.1 (by omega), fun hc => absurd hc.1 (by omega)⟩
  · rw [Nat.mod_eq_of_lt hlt]

/-- A product that wraps breaks the rule: a kernel whose hash is the wrapped product is
below the true product and is rejected. -/
theorem not_followsRule_of_wrap (h0 : 0 ≤ v) (h64 : v < 2 ^ 64)
    (hmin : params.consensus.nMinStakeValue < v)
    (hwrap : 2 ^ 256 ≤ compactTarget nBits * (v.toNat / 100)) : ¬ FollowsRule params nBits v := by
  intro hrule
  -- A hash function that always returns the wrapped product, and any kernel.
  let wrapped : Uint256 := ofNat (compactTarget nBits * (v.toNat / 100) % 2 ^ 256)
  let H : Hashing := ⟨fun _ => wrapped, fun _ => wrapped⟩
  let kernel : CStakeKernel := ⟨[], 0, [], 0, nBits, v⟩
  have hw : wrapped.toNat = compactTarget nBits * (v.toNat / 100) % 2 ^ 256 := by
    rw [toNat_ofNat, Nat.mod_mod]
  have hrej : ¬ kernel.checkKernelHash H params = true := by
    rw [checkKernelHash_iff h0 h64]
    rintro ⟨-, hless⟩
    have hless : wrapped.toNat < (setCompact nBits).value.toNat * (v.toNat / 100) % 2 ^ 256 := hless
    rw [hw, setCompact_toNat hov] at hless
    exact lt_irrefl _ hless
  refine hrej ((hrule H kernel rfl rfl).mpr ⟨hmin, ?_⟩)
  show wrapped.toNat < compactTarget nBits * (v.toNat / 100)
  omega

/-- The code follows the rule exactly below the wrap. -/
theorem followsRule_iff (h0 : 0 ≤ v) (h64 : v < 2 ^ 64) :
    FollowsRule params nBits v ↔ ProductFits params nBits v := by
  refine ⟨fun hrule => ?_, fun hfits => hfits.followsRule hov h0 h64⟩
  by_contra hno
  rw [ProductFits, not_or, not_le, not_lt] at hno
  exact not_followsRule_of_wrap hov h0 h64 hno.1 hno.2 hrule

end

/-- Where the rule holds for both values, more stake is never worse. -/
theorem FollowsRule.acceptsMore (h : FollowsRule params nBits v) (h' : FollowsRule params nBits v')
    (hle : v ≤ v') : AcceptsMore params nBits v v' := by
  intro H small large hsmall hlarge hhash hv hv' hpass
  obtain ⟨hmin, hlt⟩ := (h H small hsmall hv).mp hpass
  refine (h' H large hlarge hv').mpr ⟨hmin.trans_le hle, ?_⟩
  rw [← hhash]
  exact hlt.trans_le (weighted_le hle)

theorem lt_of_le_nMaxMoneyOut (h : v ≤ mainParams.consensus.nMaxMoneyOut) : v < 2 ^ 64 :=
  h.trans_lt (by decide)

/-- **Where the kernel rule is exact.** For a target that decodes and two values in the money
range of the main network, the code follows the rule for both, and accepts with the larger one
whatever it accepts with the smaller one, exactly when the larger one may not stake at all or its
product of target and weight fits into 256 bits. -/
theorem kernelRule_iff_product_fits (hov : (setCompact nBits).fOverflow = false) (h0 : 0 ≤ v)
    (hle : v ≤ v') (hmax : v' ≤ mainParams.consensus.nMaxMoneyOut) :
    (FollowsRule mainParams nBits v ∧ FollowsRule mainParams nBits v' ∧
      AcceptsMore mainParams nBits v v') ↔
      (v' ≤ mainParams.consensus.nMinStakeValue ∨
        compactTarget nBits * (v'.toNat / 100) < 2 ^ 256) := by
  have h64 : v' < 2 ^ 64 := lt_of_le_nMaxMoneyOut hmax
  have hlarge : FollowsRule mainParams nBits v' ↔ ProductFits mainParams nBits v' :=
    followsRule_iff hov (h0.trans hle) h64
  constructor
  · rintro ⟨-, hrule, -⟩
    exact hlarge.mp hrule
  · intro (hfits : ProductFits mainParams nBits v')
    have hrule := hlarge.mpr hfits
    have hrule' := (hfits.mono hle).followsRule hov h0 (by omega)
    exact ⟨hrule', hrule, hrule'.acceptsMore hrule hle⟩

/-- Stakes of 301 and of a million coins under the target of the bits `0x1b00ffff` are within the
exact range. -/
theorem kernelRule_holds_at_301_coins :
    FollowsRule mainParams 0x1b00ffff (301 * COIN) ∧
      FollowsRule mainParams 0x1b00ffff (1000000 * COIN) ∧
      AcceptsMore mainParams 0x1b00ffff (301 * COIN) (1000000 * COIN) :=
  (kernelRule_iff_product_fits (by decide) (by decide) (by decide) (by decide)).mpr
    (.inr (by decide))

/-- **The rule fails inside the range.** Target `2 ^ 232` is below the limit, and with a stake of
536.870912 coins the product is `2 ^ 261`, which wraps to zero: no hash is ever accepted. With the
target `2 ^ 227` the hash zero is accepted for 301 coins and not for those. -/
theorem kernelRule_fails_at_wrap :
    (¬ ∀ (nBits : UInt32) (v : ℤ), (setCompact nBits).fNegative = false →
      (setCompact nBits).fOverflow = false → 0 < compactTarget nBits →
      compactTarget nBits ≤ mainParams.consensus.posLimitV2.toNat → 0 ≤ v →
      v ≤ mainParams.consensus.nMaxMoneyOut → FollowsRule mainParams nBits v) ∧
    ¬ ∀ (nBits : UInt32) (v v' : ℤ), (setCompact nBits).fNegative = false →
      (setCompact nBits).fOverflow = false → 0 < compactTarget nBits →
      compactTarget nBits ≤ mainParams.consensus.posLimitV2.toNat → 0 ≤ v → v ≤ v' →
      v' ≤ mainParams.consensus.nMaxMoneyOut → AcceptsMore mainParams nBits v v' := by
  constructor
  · intro hall
    have hrule := hall 0x1e010000 53687091200 (by decide) (by decide) (by decide) (by decide)
      (by decide) (by decide)
    exact not_followsRule_of_wrap (by decide) (by decide) (by decide) (by decide) (by decide) hrule
  · intro hall
    have hmore := hall 0x1d080000 (301 * COIN) 53687091200 (by decide) (by decide) (by decide)
      (by decide) (by decide) (by decide) (by decide)
    have hlarge := hmore ⟨fun _ => BaseUint.zero, fun _ => BaseUint.zero⟩
      ⟨[], 0, [], 0, 0x1d080000, 301 * COIN⟩ ⟨[], 0, [], 0, 0x1d080000, 53687091200⟩ rfl rfl rfl
      rfl rfl (by decide +kernel)
    revert hlarge
    decide +kernel

end CStakeKernel

end Passion
