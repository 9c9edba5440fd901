import Passion.Chain.StakeModifier

/-!
# The required target

`CheckProofOfWork` and `GetNextWorkRequired` of `pow.cpp`. Numbers handed to the operators
of `uint256` are converted as the overloads do: to `uint32_t` for `*=`, and to a `uint256`
made from a `uint64_t` for `/=`.
-/

namespace Passion

/-- `GetCompact`. -/
def getCompact (a : Uint256) : UInt32 :=
  let nSize := (a.bits + 7) / 8
  let nCompact :=
    if nSize ≤ 3 then a.getLow64 * 2 ^ (8 * (3 - nSize))
    else (a.shiftRight (8 * (nSize - 3))).getLow64
  if nCompact / 2 ^ 23 % 2 = 1 then UInt32.ofNat (nCompact / 256 + (nSize + 1) * 2 ^ 24)
  else UInt32.ofNat (nCompact + nSize * 2 ^ 24)

/-- `CheckProofOfWork`. -/
def checkProofOfWork (params : CChainParams) (hash : Uint256) (nBits : UInt32) : Bool :=
  let target := setCompact nBits
  if params.isRegTestNet then true
  else if target.fNegative || target.value.isNull || target.fOverflow ||
      target.value.gt params.consensus.powLimit then false
  else !hash.gt target.value

/-- An `int64_t` as `uint32_t`. -/
def toUInt32 (n : ℤ) : UInt32 := UInt32.ofNat (n % 2 ^ 32).toNat

/-- An `int64_t` as `uint256`. -/
def toUint256 (n : ℤ) : Uint256 := BaseUint.ofNat (n % 2 ^ 64).toNat

/-- `a /= b`, which throws for a zero divisor. -/
def divide (a : Uint256) (b : ℤ) : Result Uint256 :=
  match a.div (toUint256 b) with
  | none => .error (.exception "Division by zero")
  | some q => .ok q

/-- The branch of `GetNextWorkRequired` for proof of stake. -/
def getNextTargetRequired (consensus : Params) (m : BlockMap) (pindexLast : CBlockIndex) :
    Result UInt32 :=
  match pindexLast.prev m with
  | none => .error (.outOfBounds "pindexLast->pprev->GetBlockTime()")
  | some pprev =>
    let fTimeV2 := consensus.isTimeProtocolV2 (pindexLast.nHeight + 1)
    let bnTargetLimit := consensus.proofOfStakeLimit fTimeV2
    let nSpacing := pindexLast.getBlockTime - pprev.getBlockTime
    let nSpacing := if nSpacing < 0 then 1 else nSpacing
    let nActualSpacing :=
      if fTimeV2 && decide (nSpacing > consensus.nTargetSpacing * 10) then
        consensus.nTargetSpacing * 10
      else nSpacing
    let bnOld := (setCompact pindexLast.nBits).value
    let bnOld :=
      if fTimeV2 && !consensus.isTimeProtocolV2 pindexLast.nHeight then bnOld.shiftLeft 4
      else bnOld
    let nInterval := (consensus.targetTimespan fTimeV2).tdiv consensus.nTargetSpacing
    let bnNew := bnOld.mulUInt32
      (toUInt32 ((nInterval - 1) * consensus.nTargetSpacing + nActualSpacing + nActualSpacing))
    (divide bnNew ((nInterval + 1) * consensus.nTargetSpacing)).bind fun bnNew =>
      .ok (getCompact (if bnNew.isNull || bnNew.gt bnTargetLimit then bnTargetLimit else bnNew))

/-- What the loop of the proof-of-work branch carries. -/
structure PastBlocks where
  countBlocks : ℤ
  pastDifficultyAverage : Uint256
  nActualTimespan : ℤ
  lastBlockTime : ℤ

/-- The body of the loop. -/
def PastBlocks.read (s : PastBlocks) (blockReading : CBlockIndex) : Result PastBlocks :=
  let countBlocks := s.countBlocks + 1
  let target := (setCompact blockReading.nBits).value
  let nActualTimespan :=
    if s.lastBlockTime > 0 then s.nActualTimespan + (s.lastBlockTime - blockReading.getBlockTime)
    else s.nActualTimespan
  (if countBlocks = 1 then .ok target
    else divide ((s.pastDifficultyAverage.mulUInt32 (toUInt32 countBlocks)).add target)
      (countBlocks + 1)).bind fun average =>
  .ok ⟨countBlocks, average, nActualTimespan, blockReading.getBlockTime⟩

/-- The branch of `GetNextWorkRequired` for proof of work, over the last 24 blocks. -/
def getNextWorkAverage (consensus : Params) (m : BlockMap) (pindexLast : CBlockIndex) :
    Result UInt32 :=
  let blocks := (pindexLast.walkBack m 23).takeWhile (fun p => decide (p.nHeight > 0))
  (blocks.foldlM PastBlocks.read ⟨0, BaseUint.zero, 0, 0⟩).bind fun s =>
  let nTargetTimespan := s.countBlocks * consensus.nTargetSpacing
  let lower := nTargetTimespan.tdiv 3
  let upper := nTargetTimespan * 3
  let raised := if s.nActualTimespan < lower then lower else s.nActualTimespan
  let nActualTimespan := if raised > upper then upper else raised
  (divide (s.pastDifficultyAverage.mulUInt32 (toUInt32 nActualTimespan)) nTargetTimespan).bind
    fun bnNew => .ok (getCompact (if bnNew.gt consensus.powLimit then consensus.powLimit else bnNew))

/-- `GetNextWorkRequired`, after a block. -/
def getNextWorkRequired (params : CChainParams) (m : BlockMap) (pindexLast : CBlockIndex) :
    Result UInt32 :=
  if params.isRegTestNet then .ok pindexLast.nBits
  else if pindexLast.nHeight = 0 || pindexLast.nHeight < 24 then
    .ok (getCompact params.consensus.powLimit)
  else if params.consensus.networkUpgradeActive (pindexLast.nHeight + 1) .upgradePos then
    getNextTargetRequired params.consensus m pindexLast
  else getNextWorkAverage params.consensus m pindexLast

/-! ## Compact targets and chain work

What is lost when a target is written in compact form and read back, and the work of a
block and of a chain in unbounded integers.
-/

open BaseUint

/-! ## Rounding -/

/-- The numbers `SetCompact` can produce without raising a flag. -/
def Representable (y : ℕ) : Prop := ∃ m k, m < 2 ^ 23 ∧ y = m * 256 ^ k

/-- **`y` is `n` cut to a mantissa of 23 bits**: no byte more than needed is dropped. -/
def CutTo (n y : ℕ) : Prop :=
  ∃ k, n / 256 ^ k < 2 ^ 23 ∧ (k = 0 ∨ 2 ^ 15 ≤ n / 256 ^ k) ∧ y = n / 256 ^ k * 256 ^ k

/-- The mantissa is the largest one: a smaller exponent would only reach below `2 ^ 15`. -/
theorem CutTo.isGreatest {n y : ℕ} (h : CutTo n y) :
    IsGreatest {z | Representable z ∧ z ≤ n} y := by
  obtain ⟨k, hm, hk, rfl⟩ := h
  refine ⟨⟨⟨_, k, hm, rfl⟩, Nat.div_mul_le_self n _⟩, ?_⟩
  rintro _ ⟨⟨m, j, hj, rfl⟩, hle⟩
  rcases Nat.lt_or_ge j k with hjk | hjk
  · have hlow : 2 ^ 15 ≤ n / 256 ^ k := hk.resolve_left (by omega)
    calc m * 256 ^ j ≤ 2 ^ 23 * 256 ^ (k - 1) :=
          Nat.mul_le_mul hj.le (Nat.pow_le_pow_right (by norm_num) (by omega))
      _ = 2 ^ 15 * 256 ^ k := by
          obtain ⟨i, rfl⟩ : ∃ i, k = i + 1 := ⟨k - 1, by omega⟩
          rw [Nat.add_sub_cancel]
          ring
      _ ≤ n / 256 ^ k * 256 ^ k := Nat.mul_le_mul_right _ hlow
  · obtain ⟨i, rfl⟩ := Nat.exists_eq_add_of_le hjk
    rw [pow_add, mul_comm (256 ^ k), ← mul_assoc] at hle ⊢
    exact Nat.mul_le_mul_right _ ((Nat.le_div_iff_mul_le (Nat.pow_pos (by norm_num))).mpr hle)

theorem CutTo.error_lt {n y : ℕ} (h : CutTo n y) (hn : n ≠ 0) : (n - y) * 2 ^ 15 < n := by
  obtain ⟨k, -, hk, rfl⟩ := h
  have hmod : n - n / 256 ^ k * 256 ^ k = n % 256 ^ k := by
    rw [Nat.mod_eq_sub_div_mul]
  rw [hmod]
  rcases hk with rfl | hk
  · simpa [Nat.mod_one] using Nat.pos_of_ne_zero hn
  · calc n % 256 ^ k * 2 ^ 15 < 256 ^ k * 2 ^ 15 :=
          Nat.mul_lt_mul_of_pos_right (Nat.mod_lt _ (Nat.pow_pos (by norm_num))) (by norm_num)
      _ ≤ n / 256 ^ k * 256 ^ k := by rw [mul_comm]; exact Nat.mul_le_mul_right _ hk
      _ ≤ n := Nat.div_mul_le_self n _

/-- `SetCompact` on a mantissa and a size that `GetCompact` can write. -/
theorem setCompact_parts {c : UInt32} {m e : ℕ} (hc : c.toNat = m + e * 2 ^ 24) (hm : m < 2 ^ 23)
    (he : e ≤ 33) (hover : 32 < e → m ≤ 0xffff) :
    (setCompact c).fNegative = false ∧ (setCompact c).fOverflow = false ∧
      (setCompact c).value.toNat = if e ≤ 3 then m / 256 ^ (3 - e) else m * 256 ^ (e - 3) := by
  have hsize : c.toNat / 2 ^ 24 = e := by omega
  have hword : c.toNat % 2 ^ 23 = m := by omega
  have hsign : c.toNat / 2 ^ 23 % 2 = 0 := by omega
  have hflag : (setCompact c).fOverflow = false := by
    simp only [setCompact]
    grind
  refine ⟨by simp only [setCompact, hsign]; simp, hflag, ?_⟩
  rw [setCompact_toNat hflag, compactTarget]
  simp only [hsize, hword]

/-- The number of bytes `GetCompact` counts. -/
theorem size_bytes (n : ℕ) : n < 256 ^ ((n.size + 7) / 8) ∧
    ((n.size + 7) / 8 = 0 ∨ 256 ^ ((n.size + 7) / 8) ≤ 256 * n) := by
  have h256 : ∀ i, 256 ^ i = 2 ^ (8 * i) := fun i => by rw [pow_mul]; rfl
  refine ⟨?_, or_iff_not_imp_left.mpr fun h => ?_⟩
  · rw [h256]
    exact (Nat.lt_size_self n).trans_le (Nat.pow_le_pow_right (by norm_num) (by omega))
  · obtain ⟨i, hi⟩ := Nat.exists_eq_succ_of_ne_zero h
    rw [hi, pow_succ', h256]
    exact Nat.mul_le_mul_left 256 (Nat.lt_size.mp (by omega))

/-- The mantissa of `n` in a compact form of `e` bytes. -/
def mantissa (n e : ℕ) : ℕ := n * 256 ^ 3 / 256 ^ e

theorem mantissa_eq (n e : ℕ) :
    mantissa n e = if e ≤ 3 then n * 256 ^ (3 - e) else n / 256 ^ (e - 3) := by
  split_ifs with he
  · rw [mantissa, ← Nat.sub_add_cancel he, pow_add, ← mul_assoc, Nat.add_sub_cancel,
      Nat.mul_div_cancel _ (Nat.pow_pos (by norm_num))]
  · rw [mantissa, ← Nat.sub_add_cancel (Nat.le_of_not_le he), pow_add, Nat.add_sub_cancel,
      Nat.mul_div_mul_right _ _ (by norm_num)]

theorem CutTo.of_mantissa {n e : ℕ} (hm : mantissa n e < 2 ^ 23)
    (hlow : e ≤ 3 ∨ 2 ^ 15 ≤ mantissa n e) : CutTo n
      (if e ≤ 3 then mantissa n e / 256 ^ (3 - e) else mantissa n e * 256 ^ (e - 3)) := by
  rw [mantissa_eq] at *
  split_ifs at hm hlow ⊢ with he
  · have hle := Nat.le_mul_of_pos_right n (Nat.pow_pos (n := 3 - e) (show 0 < 256 by norm_num))
    exact ⟨0, by simpa using hle.trans_lt hm, .inl rfl, by simp⟩
  · exact ⟨e - 3, hm, .inr (hlow.resolve_left he), rfl⟩

/-- **The size that `GetCompact` writes**: one byte more where the mantissa would have the bit of
the sign. -/
theorem getCompact_parts (x : Uint256) : ∃ e, (getCompact x).toNat = mantissa x.toNat e + e * 2 ^ 24 ∧
    mantissa x.toNat e < 2 ^ 23 ∧ e ≤ 33 ∧ (32 < e → mantissa x.toNat e ≤ 0xffff) ∧
    (e ≤ 3 ∨ 2 ^ 15 ≤ mantissa x.toNat e) := by
  obtain ⟨hhigh, hlow⟩ := size_bytes x.toNat
  have hs : (x.toNat.size + 7) / 8 ≤ 32 := by
    have := Nat.size_le.mpr x.toNat_lt
    omega
  simp only [getCompact, bits_eq_size, getLow64, toNat_shiftRight]
  generalize (x.toNat.size + 7) / 8 = s at *
  generalize x.toNat = n at *
  have hpos : 0 < 256 ^ s := Nat.pow_pos (by norm_num)
  have hlt : mantissa n s < 2 ^ 24 := by
    rw [mantissa, Nat.div_lt_iff_lt_mul hpos]
    omega
  have hge : s = 0 ∨ 2 ^ 16 ≤ mantissa n s := by
    refine hlow.imp_right fun h => ?_
    rw [mantissa, Nat.le_div_iff_mul_le hpos]
    omega
  have hc : (if s ≤ 3 then n % 2 ^ 64 * 2 ^ (8 * (3 - s)) else n / 2 ^ (8 * (s - 3)) % 2 ^ 64) =
      mantissa n s := by
    rw [mantissa_eq] at hlt ⊢
    split_ifs at hlt ⊢ with h
    · have := Nat.pow_le_pow_right (show 0 < 256 by norm_num) h
      rw [pow_mul, Nat.mod_eq_of_lt (by omega)]
      rfl
    · rw [pow_mul]
      exact Nat.mod_eq_of_lt (hlt.trans (by norm_num))
  rw [hc]
  rcases Nat.lt_or_ge (mantissa n s) (2 ^ 23) with hbit | hbit
  · refine ⟨s, ?_, hbit, by omega, by omega, by omega⟩
    rw [if_neg (by omega), UInt32.toNat_ofNat', Nat.mod_eq_of_lt (by omega)]
  · have hsucc : mantissa n (s + 1) = mantissa n s / 256 := by
      rw [mantissa, mantissa, Nat.div_div_eq_div_mul, ← pow_succ]
    refine ⟨s + 1, ?_, by omega, by omega, by omega, by omega⟩
    rw [if_pos (by omega), UInt32.toNat_ofNat', Nat.mod_eq_of_lt (by omega), hsucc]

/-- **Compact form rounds down.** -/
theorem setCompact_getCompact (x : Uint256) :
    (setCompact (getCompact x)).fNegative = false ∧ (setCompact (getCompact x)).fOverflow = false ∧
      CutTo x.toNat (setCompact (getCompact x)).value.toNat := by
  obtain ⟨e, hc, hm, he, hover, hlow⟩ := getCompact_parts x
  obtain ⟨hneg, hflag, hvalue⟩ := setCompact_parts hc hm he hover
  exact ⟨hneg, hflag, hvalue ▸ CutTo.of_mantissa hm hlow⟩

theorem representable_compactTarget (nBits : UInt32) : Representable (compactTarget nBits) := by
  have hword : nBits.toNat % 2 ^ 23 < 2 ^ 23 := Nat.mod_lt _ (by norm_num)
  unfold compactTarget
  dsimp only
  split_ifs
  · exact ⟨_, 0, (Nat.div_le_self _ _).trans_lt hword, (Nat.mul_one _).symm⟩
  · exact ⟨_, _, hword, rfl⟩

/-- **Writing a target in compact form and reading it back rounds it down** to the next number
that has a compact form, and leaves a target that was read from one as it is. -/
theorem compact_roundTrip :
    (∀ x : Uint256,
      (setCompact (getCompact x)).fNegative = false ∧
      (setCompact (getCompact x)).fOverflow = false ∧
      IsGreatest {z | (∃ m k, m < 2 ^ 23 ∧ z = m * 256 ^ k) ∧ z ≤ x.toNat}
        (setCompact (getCompact x)).value.toNat ∧
      (x.toNat ≠ 0 → (x.toNat - (setCompact (getCompact x)).value.toNat) * 2 ^ 15 < x.toNat) ∧
      ∀ y : Uint256, x.toNat ≤ y.toNat →
        (setCompact (getCompact x)).value.toNat ≤ (setCompact (getCompact y)).value.toNat) ∧
    ∀ nBits : UInt32, (setCompact nBits).fNegative = false → (setCompact nBits).fOverflow = false →
      (setCompact nBits).value.toNat ≠ 0 →
      (setCompact (getCompact (setCompact nBits).value)).value = (setCompact nBits).value := by
  refine ⟨fun x => ?_, fun nBits _ hflag _ => ?_⟩
  · obtain ⟨hneg, hflag, hcut⟩ := setCompact_getCompact x
    refine ⟨hneg, hflag, hcut.isGreatest, hcut.error_lt, fun y hxy => ?_⟩
    exact (setCompact_getCompact y).2.2.isGreatest.2
      ⟨hcut.isGreatest.1.1, hcut.isGreatest.1.2.trans hxy⟩
  · have hgreatest := (setCompact_getCompact (setCompact nBits).value).2.2.isGreatest
    have hself : Representable (setCompact nBits).value.toNat :=
      setCompact_toNat hflag ▸ representable_compactTarget nBits
    exact toNat_injective (Nat.le_antisymm hgreatest.1.2 (hgreatest.2 ⟨hself, le_rfl⟩))

/-! ## Work -/

section Work

variable {nBits : UInt32}

/-- The target of `nBits`, if `GetBlockProof` counts the block. -/
def validTarget (nBits : UInt32) : Option ℕ :=
  let target := setCompact nBits
  if target.fNegative || target.fOverflow || target.value.isNull then none
  else some target.value.toNat

/-- The target plus one does not wrap: `2 ^ 256 - 1` is odd and has more than 23 bits. -/
theorem setCompact_add_one_lt (h : (setCompact nBits).fOverflow = false) :
    (setCompact nBits).value.toNat + 1 < 2 ^ 256 := by
  have hlt := (setCompact nBits).value.toNat_lt
  obtain ⟨m, k, hm, hy⟩ := setCompact_toNat h ▸ representable_compactTarget nBits
  cases k with
  | zero => omega
  | succ k =>
    rw [pow_succ, ← mul_assoc] at hy
    omega

theorem getBlockProof_of_valid {T : ℕ} (h : validTarget nBits = some T) :
    (getBlockProof nBits).toNat = 2 ^ 256 / (T + 1) ∧ 0 < T ∧ T + 1 < 2 ^ 256 := by
  unfold validTarget at h
  unfold getBlockProof
  dsimp only at h ⊢
  split_ifs at h with hbad
  obtain rfl := Option.some.inj h
  rw [if_neg hbad]
  simp only [Bool.or_eq_true, not_or, isNull_iff, Bool.not_eq_true] at hbad
  obtain ⟨⟨-, hflag⟩, hnull⟩ := hbad
  have hlt := setCompact_add_one_lt hflag
  generalize (setCompact nBits).value = target at hnull hlt ⊢
  have hnot : target.not.toNat + target.toNat + 1 = 2 ^ 256 := by
    have h := Limbs.value_complement target.pn
    rwa [target.length_pn] at h
  have hden : (target.add (ofNat 1)).toNat = target.toNat + 1 := by
    rw [toNat_add]
    exact Nat.mod_eq_of_lt hlt
  obtain ⟨q, hq, hv⟩ := div_eq_some (a := target.not) (b := target.add (.ofNat 1)) (by omega)
  have hsum : q.toNat + 1 = 2 ^ 256 / (target.toNat + 1) := by
    rw [hv, hden, ← Nat.add_div_right _ (Nat.succ_pos _), ← hnot, add_assoc]
  have hhalf : 2 ^ 256 / (target.toNat + 1) ≤ 2 ^ 255 :=
    (Nat.div_le_div_left (by omega) (by norm_num)).trans (show 2 ^ 256 / 2 ≤ 2 ^ 255 by norm_num)
  refine ⟨?_, Nat.pos_of_ne_zero hnull, hlt⟩
  rw [hq, toNat_add, ← hsum]
  exact Nat.mod_eq_of_lt (hsum.trans_le hhalf |>.trans_lt (by norm_num))

theorem getBlockProof_of_invalid (h : validTarget nBits = none) :
    (getBlockProof nBits).toNat = 0 := by
  unfold validTarget at h
  unfold getBlockProof
  dsimp only at h ⊢
  split_ifs at h with hbad
  rw [if_pos hbad, toNat_zero]

/-- A valid target gives at least one unit of work. -/
theorem getBlockProof_pos {T : ℕ} (h : validTarget nBits = some T) :
    0 < (getBlockProof nBits).toNat := by
  obtain ⟨hproof, -, hlt⟩ := getBlockProof_of_valid h
  rw [hproof]
  exact Nat.div_pos hlt.le (Nat.succ_pos T)

end Work

end Passion
