import Passion.Script.Interpreter
import Passion.Validation.CheckBlock
import Passion.Wallet.CoinStakeForm

/-!
# Cold stakes of the wallet

Two rules bind the outputs of a coinstake that spends an output delegated to a staker.
`CheckColdStake` of `interpreter.cpp` asks that all outputs but the first and the last pay to the
delegated script, `CheckColdStakeFreeOutput` of `validation.cpp` that the last two pay to the same
script. The wallet puts the outputs of the tiers behind those of the stake.
-/

namespace Passion

open List MachineNumber Option TransactionSignatureChecker

/-! ## The two rules -/

variable {script : CScript} {l : List CTxOut}
variable {outs i n : ℕ} {tx txNew : CTransaction}

/-- If all outputs pay to the script, their whole value counts, in 64 bits. -/
theorem coldStakeValue_of_all {v : ℤ} (hv : toInt64 v = v)
    (h : ∀ out ∈ l, out.scriptPubKey = script) :
    coldStakeValue script outs i l v = some (toInt64 (v + valueSum l)) := by
  induction l generalizing i v with
  | nil => simp [coldStakeValue, hv]
  | cons out l ih =>
    have hout := h out (mem_cons_self ..)
    rw [coldStakeValue, if_neg (not_not.mpr hout),
      ih (toInt64_toInt64 _) fun o ho => h o (mem_cons_of_mem _ ho), valueSum_cons]
    simp [add_assoc]

/-- All outputs but the last have to pay to the script. -/
theorem script_of_coldStakeValue {v w : ℤ}
    (h : coldStakeValue script outs i l v = some w) (hlen : i + l.length = outs) :
    ∀ out ∈ l.dropLast, out.scriptPubKey = script := by
  induction l generalizing i v with
  | nil => simp
  | cons out l ih =>
    cases l with
    | nil => simp
    | cons out' l =>
      have hlen' : i + 1 + (out' :: l).length = outs := by
        rw [length_cons] at hlen
        omega
      unfold coldStakeValue at h
      split at h
      · -- the output differs, but it is not the last one
        next hne =>
        rw [if_pos] at h
        · cases h
        · rw [length_cons, length_cons] at hlen
          omega
      · next heq =>
        intro o ho
        rcases mem_cons.mp ho with rfl | ho
        · exact not_not.mp heq
        · exact ih h hlen' o ho

variable {E : Env} {params : CChainParams} {N : NodeState} {nHeight : ℤ}

/-- On a synced node the last two outputs of a cold stake have to agree. -/
theorem checkColdStakeFreeOutput_iff {first : CTxOut} {y z : CTxOut}
    (hsync : N.fBlockchainSynced = true) (hP2CS : tx.hasP2CSOutputs = true)
    (hvout : tx.vout = first :: (l ++ [y, z])) :
    checkColdStakeFreeOutput E params N tx nHeight = .ok true ↔
      z.scriptPubKey = y.scriptPubKey := by
  have hrev : tx.vout.reverse = z :: y :: (l.reverse ++ [first]) := by simp [hvout]
  obtain ⟨a, rest, hrest⟩ : ∃ a rest, l.reverse ++ [first] = a :: rest :=
    exists_cons_of_ne_nil (by simp)
  unfold checkColdStakeFreeOutput
  rw [hP2CS, hrev, hrest]
  simp only [Bool.not_true, Bool.false_eq_true, if_false, hsync]
  split_ifs with heq
  · exact ⟨fun _ => heq, fun _ => rfl⟩
  · simp [heq]
  · simp [heq]

/-- **Both rules**, for a coinstake with one input and outputs behind an empty first one, of
which the first pays to the script. -/
theorem coldStake_rules_iff {t : TransactionSignatureChecker} {first x : CTxOut}
    (hsync : N.fBlockchainSynced = true) (hscript : CScript.isPayToColdStaking script = true)
    (hstake : t.txTo.isCoinStake = true) (hin : t.txTo.vin.length = 1)
    (hvout : t.txTo.vout = first :: x :: l) (hx : x.scriptPubKey = script) :
    (t.checkColdStake script = true ∧
        checkColdStakeFreeOutput E params N t.txTo nHeight = .ok true) ↔
      (∀ out ∈ l, out.scriptPubKey = script) ∧ t.amount < toInt64 (valueSum (x :: l)) := by
  have hP2CS : t.txTo.hasP2CSOutputs = true := by
    simp [CTransaction.hasP2CSOutputs, hvout, hx, hscript]
  have hcheck : t.checkColdStake script =
      (coldStakeValue script (l.length + 2) 1 (x :: l) 0).any (· > t.amount) := by
    simp [checkColdStake, hstake, hin, hvout]
  have hvalue : (∀ out ∈ l, out.scriptPubKey = script) →
      coldStakeValue script (l.length + 2) 1 (x :: l) 0 = some (toInt64 (valueSum (x :: l))) := by
    intro hall
    rw [coldStakeValue_of_all rfl, zero_add]
    intro out hout
    rcases mem_cons.mp hout with rfl | hout
    · exact hx
    · exact hall out hout
  -- the last output has one before it, unless it is the only one of the stake
  have hfree : (∀ out ∈ (x :: l).dropLast, out.scriptPubKey = script) →
      (checkColdStakeFreeOutput E params N t.txTo nHeight = .ok true ↔
        ∀ out ∈ l, out.scriptPubKey = script) := by
    intro hdrop
    rcases eq_nil_or_concat l with rfl | ⟨l', z, rfl⟩
    · simp [checkColdStakeFreeOutput, hvout]
    · have hcons : x :: (l' ++ [z]) = (x :: l') ++ [z] := rfl
      rw [concat_eq_append, hcons, dropLast_concat] at hdrop
      rcases eq_nil_or_concat (x :: l') with hnil | ⟨m, y, hm⟩
      · cases hnil
      rw [concat_eq_append] at hm
      have hy : y.scriptPubKey = script := hdrop y (by simp [hm])
      have hsplit : t.txTo.vout = first :: (m ++ [y, z]) := by
        rw [hvout, concat_eq_append, hcons, hm, append_assoc]
        rfl
      rw [checkColdStakeFreeOutput_iff hsync hP2CS hsplit, hy]
      constructor
      · intro hz out hout
        rcases (show out ∈ l' ∨ out = z by simpa using hout) with hout | rfl
        · exact hdrop out (mem_cons_of_mem _ hout)
        · exact hz
      · intro hall
        exact hall z (by simp)
  rw [hcheck]
  constructor
  · rintro ⟨hcold, hlast⟩
    cases hw : coldStakeValue script (l.length + 2) 1 (x :: l) 0 with
    | none => simp [hw] at hcold
    | some w =>
      have hdrop := script_of_coldStakeValue hw (by rw [length_cons]; omega)
      have hall := (hfree hdrop).mp hlast
      rw [hvalue hall] at hcold
      exact ⟨hall, by simpa using hcold⟩
  · rintro ⟨hall, hlt⟩
    refine ⟨by simpa [hvalue hall] using hlt, (hfree fun out hout => ?_).mpr hall⟩
    rcases mem_cons.mp (mem_of_mem_dropLast hout) with rfl | hout
    · exact hx
    · exact hall out hout

/-! ## What the wallet builds -/

/-- A script that passes for a delegation has the keys of one, or none. -/
theorem solver_of_isPayToColdStaking (h : CScript.isPayToColdStaking script = true) :
    solver script = .coldstake ∨ solver script = .other := by
  unfold solver
  rw [Script.solver_of_isPayToColdStaking h]
  split_ifs
  · exact .inr rfl
  · exact .inl rfl

variable {pay : ℤ → ℕ → ℤ} {H : Hashing} {mt : CMultiTier} {view : CCoinsView}
variable {wallet : CWallet} {pindexPrev : CBlockIndex} {nBits : UInt32} {tries : List StakeTry}
variable {t : StakeTry}

/-- The outputs for a cold stake pay to its script. -/
theorem StopsAt.script_eq
    (h : StopsAt H params wallet pindexPrev nBits txNew tries t script n)
    (hP2CS : CScript.isPayToColdStaking (t.coin.stakeInput H).outputFrom.scriptPubKey = true) :
    script = (t.coin.stakeInput H).outputFrom.scriptPubKey := by
  have houts := h.outs
  unfold StakeTry.txOuts CPivStake.createTxOuts CPivStake.outputScript at houts
  dsimp only at houts
  rcases solver_of_isPayToColdStaking hP2CS with hsolver | hsolver
  swap
  · rw [hsolver] at houts
    cases houts
  rw [hsolver] at houts
  obtain ⟨s, hs, hrep⟩ := map_eq_some_iff.mp houts
  obtain ⟨_, -, rfl⟩ := map_eq_some_iff.mp hs
  have hmem : (⟨0, script⟩ : CTxOut) ∈ replicate (splitCount wallet.nStakeSplitThreshold
      (t.credit H params pindexPrev)) ⟨0, (t.coin.stakeInput H).outputFrom.scriptPubKey⟩ := by
    rw [hrep]
    simp
  exact (CTxOut.mk.inj (eq_of_mem_replicate hmem)).2

/-- The search stops at one place. -/
theorem StopsAt.unique {t' : StakeTry} {script script' : CScript}
    {n' : ℕ} (h : StopsAt H params wallet pindexPrev nBits txNew tries t script n)
    (h' : StopsAt H params wallet pindexPrev nBits txNew tries t' script' n') :
    t = t' ∧ script = script' ∧ n = n' := by
  obtain rfl : t = t' := some.inj (h.found.symm.trans h'.found)
  have hrep := some.inj (h.outs.symm.trans h'.outs)
  have hlen : n + 1 = n' + 1 := by simpa using congrArg length hrep
  have hhead := congrArg head? hrep
  simp only [replicate_succ, head?_cons, some.injEq, CTxOut.mk.injEq, true_and] at hhead
  exact ⟨rfl, hhead, by omega⟩

/-- What is created at the place where the search stops. -/
theorem StopsAt.created {signer : Signer} {nTime time : ℤ}
    (h : StopsAt H params wallet pindexPrev nBits txNew tries t script n)
    (hcreate : createCoinStake pay H params mt view wallet pindexPrev nBits signer txNew nTime
      tries = some (tx, time)) :
    tx.vin.map (·.prevout) = [t.coin.outPoint H] ∧
      tx.vout = ⟨0, []⟩ :: (deducted (valueSum (nextTiers H params pindexPrev pay mt view))
        (stakeOutputs script n (t.credit H params pindexPrev)) ++
          nextTiers H params pindexPrev pay mt view) := by
  obtain ⟨tx₀, hsearch, hsign⟩ := exists_createCoinStake_iff.mp ⟨time, hcreate⟩
  obtain ⟨hout, hin⟩ := foldlM_signInput hsign
  rcases searchKernel_found_iff.mp hsearch with ⟨⟨hnone, -⟩, -⟩ | ⟨t', script', n', h', rfl⟩
  · cases hnone.symm.trans h.found
  · obtain ⟨rfl, rfl, rfl⟩ := h.unique h'
    exact ⟨hin, hout⟩

/-- **When the cold stakes of the wallet are valid**: exactly if every tier that elects a
script elects the delegated one, and the reward of the block makes the staked amount larger; the
sum is taken in 64 bits. -/
theorem createCoinStake_coldStake_iff (env : ScriptEnv) (nIn : ℕ) {signer : Signer}
    {txNew tx : CTransaction}
    {nTime time : ℤ} {tries : List StakeTry} {t : StakeTry} {script : CScript} {n : ℕ}
    (hsync : N.fBlockchainSynced = true)
    (hcreate : createCoinStake pay E.toHashing params mt view wallet pindexPrev nBits signer txNew
      nTime tries = some (tx, time))
    (hstop : StopsAt E.toHashing params wallet pindexPrev nBits txNew tries t script n)
    (hP2CS : CScript.isPayToColdStaking
      (t.coin.stakeInput E.toHashing).outputFrom.scriptPubKey = true) :
    (checkColdStake ⟨env, tx, nIn, (t.coin.stakeInput E.toHashing).outputFrom.nValue⟩
          (t.coin.stakeInput E.toHashing).outputFrom.scriptPubKey = true ∧
        checkColdStakeFreeOutput E params N tx (pindexPrev.nHeight + 1) = .ok true) ↔
      (∀ level ∈ multiTierLevels, ∀ winner,
        tierWinner E.toHashing mt view pindexPrev level = some winner →
          winner = (t.coin.stakeInput E.toHashing).outputFrom.scriptPubKey) ∧
      (t.coin.stakeInput E.toHashing).outputFrom.nValue <
        toInt64 ((t.coin.stakeInput E.toHashing).outputFrom.nValue +
          getBlockValue params (pindexPrev.nHeight + 1)) := by
  obtain ⟨hin, hout⟩ := hstop.created hcreate
  obtain rfl := hstop.script_eq hP2CS
  have hsum : valueSum (deducted (valueSum (nextTiers E params pindexPrev pay mt view))
      (stakeOutputs (t.coin.stakeInput E).outputFrom.scriptPubKey n
        (t.credit E params pindexPrev)) ++
      nextTiers E params pindexPrev pay mt view) =
      (t.coin.stakeInput E).outputFrom.nValue + getBlockValue params (pindexPrev.nHeight + 1) := by
    rw [valueSum_append, valueSum_deducted _ (stakeOutputs_ne_nil _ _ _), valueSum_stakeOutputs,
      sub_add_cancel]
    rfl
  obtain ⟨o, rest, hrest, ho, hscripts⟩ := exists_deducted_cons
    (t.coin.stakeInput E).outputFrom.scriptPubKey n (t.credit E params pindexPrev)
    (valueSum (nextTiers E params pindexPrev pay mt view))
  rw [hrest, cons_append] at hout hsum
  have hlen : tx.vin.length = 1 := by simpa using congrArg length hin
  rw [coldStake_rules_iff (t := ⟨env, tx, nIn, _⟩) hsync hP2CS (isCoinStake_of_outPoint hin hout)
    hlen hout ho, hsum]
  refine and_congr_left fun _ => ?_
  constructor
  · intro hall level hlevel winner hwin
    exact hall ⟨_, winner⟩ (mem_append_right _ (mem_tierOutputs.mpr ⟨level, hlevel, hwin, rfl⟩))
  · intro hall out hmem
    rcases mem_append.mp hmem with hmem | hmem
    · exact hscripts out hmem
    · obtain ⟨level, hlevel, hwin, -⟩ := mem_tierOutputs.mp hmem
      exact hall level hlevel _ hwin

/-! ## One delegated output -/

/-- An output script that delegates to a staker. -/
def coldScript : CScript :=
  [Opcode.OP_DUP, Opcode.OP_HASH160, Opcode.OP_ROT, 0x63, Opcode.OP_CHECKCOLDSTAKEVERIFY, 0x14] ++
    List.replicate 20 1 ++ [0x67, 0x14] ++ List.replicate 20 2 ++
    [0x68, Opcode.OP_EQUALVERIFY, Opcode.OP_CHECKSIG]

/-- A wallet that has the key of every staker. -/
def stakerWallet : CWallet := ⟨0, fun _ => some (2 :: List.replicate 32 0)⟩

/-- Crypto that is not called. -/
def unusedEnv : ScriptEnv :=
  ⟨fun _ => .zeros 20, fun _ => .zeros 20, fun _ => .zeros 32, fun _ => .zeros 20,
    fun _ => .zeros 32, fun _ => true, fun _ _ _ => true, fun _ _ _ _ _ _ => BaseUint.zero⟩

/-- A node that is synced. -/
def syncedNode : NodeState := { NodeState.fresh with fBlockchainSynced := true }

theorem createCoinStake_coldStake_without_tiers :
    ∃ tx time, createCoinStake getMultiTierValue sampleEnv.toHashing mainParams ⟨.empty⟩
        (tierView [0x51] [0x52]) stakerWallet tierParent 0x1d00ffff .willing (.plain [] []) 0
        [stakeTry coldScript] = some (tx, time) ∧
      checkColdStake ⟨unusedEnv, tx, 0, 400 * COIN⟩ coldScript = true ∧
      checkColdStakeFreeOutput sampleEnv mainParams syncedNode tx (tierParent.nHeight + 1) =
        .ok true := by
  obtain ⟨⟨tx, time⟩, hcreate⟩ : ∃ r, createCoinStake getMultiTierValue sampleEnv mainParams
      ⟨.empty⟩ (tierView [0x51] [0x52]) stakerWallet tierParent 0x1d00ffff .willing (.plain [] [])
      0 [stakeTry coldScript] = some r := by
    decide +kernel
  have hstops : (stakeTry coldScript).stops sampleEnv mainParams stakerWallet tierParent
      0x1d00ffff = true := by
    decide +kernel
  have hstop : StopsAt sampleEnv mainParams stakerWallet tierParent 0x1d00ffff
      (.plain [] []) [stakeTry coldScript] (stakeTry coldScript) coldScript 0 :=
    ⟨find?_cons_of_pos hstops, rfl, by decide +kernel, by unfold FitsLimit; decide +kernel⟩
  refine ⟨tx, time, hcreate, (createCoinStake_coldStake_iff unusedEnv 0 rfl hcreate hstop
    (by decide)).mpr ?_⟩
  refine ⟨fun level hlevel winner hwin => ?_, by decide⟩
  cases hwin

/-- **A tier breaks a cold stake.** With two tiers elected, the outputs behind those of the
stake pay to other scripts than the delegated one. -/
theorem createCoinStake_coldStake_invalid :
    ¬ ∀ (pay : ℤ → ℕ → ℤ) (E : Env) (params : CChainParams) (N : NodeState) (mt : CMultiTier)
        (view : CCoinsView) (wallet : CWallet) (pindexPrev : CBlockIndex) (nBits : UInt32)
        (signer : Signer) (txNew tx : CTransaction) (nTime time : ℤ) (tries : List StakeTry)
        (t : StakeTry) (env : ScriptEnv) (nIn : ℕ),
      N.fBlockchainSynced = true →
      createCoinStake pay E.toHashing params mt view wallet pindexPrev nBits signer txNew nTime
        tries = some (tx, time) →
      t ∈ tries → tx.vin.map (·.prevout) = [t.coin.outPoint E.toHashing] →
      CScript.isPayToColdStaking (t.coin.stakeInput E.toHashing).outputFrom.scriptPubKey = true →
      checkColdStake ⟨env, tx, nIn, (t.coin.stakeInput E.toHashing).outputFrom.nValue⟩
          (t.coin.stakeInput E.toHashing).outputFrom.scriptPubKey = true ∧
        checkColdStakeFreeOutput E params N tx (pindexPrev.nHeight + 1) = .ok true := by
  intro hall
  obtain ⟨⟨tx, time⟩, hcreate, hin, hcold⟩ : ∃ r, createCoinStake getMultiTierValue sampleEnv
      mainParams tierRegister (tierView [0x51] [0x52]) stakerWallet tierParent 0x1d00ffff .willing
      (.plain [] []) 0 [stakeTry coldScript] = some r ∧
      r.1.vin.map (·.prevout) = [(stakeTry coldScript).coin.outPoint sampleEnv] ∧
      checkColdStake ⟨unusedEnv, r.1, 0, 400 * COIN⟩ coldScript = false := by
    decide +kernel
  have hgood := (hall _ sampleEnv _ syncedNode _ _ _ _ _ _ _ _ _ _ _ _ unusedEnv 0 rfl hcreate
    (mem_singleton_self _) hin (by decide)).1
  exact absurd (hgood.symm.trans hcold) (by decide)

end Passion
