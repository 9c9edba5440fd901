import Passion.Coins.Reading
import Passion.Validation.ConnectBlock

/-!
# The checks on a transaction in `ConnectBlock`

The body of the loop of `ConnectBlock` first looks at the transaction and the view, and then
applies the transaction. What it looks at changes nothing that a relation undisturbed by reads
can see.
-/

namespace Passion

open Stateful CoinsView CCoinsViewCache

variable {σ : Type} [CoinsView σ] {E : Env} {params : CChainParams} {N : NodeState}

namespace SkipsReads

open Skips

variable {τ : Type} {R : σ → τ → Prop} (h : SkipsReads E R)
variable (tx : CTransaction)

include h

theorem getSpendHeight : Skips R (getSpendHeight N : Stateful Failure σ ℤ) := by
  refine h.getBestBlock.bind fun hash => ?_
  cases N.mapBlockIndex.lookup hash with
  | none => exact fail _
  | some pindexPrev => exact pure _

theorem checkTxInputs (nSpendHeight : ℤ) :
    Skips R (checkTxInputs E params.consensus tx nSpendHeight : Stateful Failure σ Unit) := by
  refine (h.haveInputs tx).bind fun fHave => ite (fun _ => fail _) fun _ => ?_
  refine (h.haveShieldedRequirements tx).bind fun fMet =>
    ite (fun _ => fail _) fun _ => ?_
  refine (Skips.fold (fun n txin _ => ?_) 0).bind fun nValueIn => Skips.ofResult _
  exact (h.accessCoin txin.prevout).bind fun coin => Skips.ofResult _

theorem checkInputs (fScriptChecks fQueue : Bool) (flags : ℕ) :
    Skips R (checkInputs E params N tx fScriptChecks flags fQueue :
      Stateful Failure σ (List CScriptCheck)) := by
  refine ite (fun _ => pure []) fun _ => h.getSpendHeight.bind fun nSpendHeight => ?_
  refine (h.checkTxInputs tx nSpendHeight).bind fun _ =>
    ite (fun _ => ?_) fun _ => pure []
  refine (Skips.collect fun input _ => ?_).bind fun checks => Skips.pure checks.flatten
  refine (h.accessCoin input.1.prevout).bind fun coin => ?_
  refine ite (fun _ => fail _) fun _ => ite (fun _ => pure _) fun _ => ?_
  exact (Skips.ofResult _).bind fun _ => Skips.pure []

theorem connectTxInputs (nSigOps : ℕ) :
    Skips R (connectTxInputs E nSigOps tx : Stateful Failure σ ℕ) := by
  refine ite (fun _ => pure _) fun _ => (h.haveInputs tx).bind fun fHave => ?_
  refine ite (fun _ => fail _) fun _ => ?_
  refine (h.haveShieldedRequirements tx).bind fun fMet =>
    ite (fun _ => fail _) fun _ => ?_
  exact (h.getP2SHSigOpCount tx).bind fun nP2SH =>
    ite (fun _ => fail _) fun _ => pure _

end SkipsReads

/-! ## What a block mints

`ConnectBlock` sums up what the transactions of a block pay out and take in, and compares the result
with nothing. A count over the same view separates what coinbase and coinstakes create from the fees
of the others.
-/

/-! ## Counting -/

/-- What coinbase and coinstakes create, and the fees of the other transactions. -/
structure Tally where
  minted : ℤ
  fees : ℤ

/-- A transaction is counted. -/
def Tally.count (t : Tally) (tx : CTransaction) (nValueIn nValueOut : ℤ) : Tally :=
  if tx.isCoinBase || tx.isCoinStake then { t with minted := t.minted + (nValueOut - nValueIn) }
  else { t with fees := t.fees + (nValueIn - nValueOut) }

section
variable (H : Hashing) (nHeight : ℤ)

/-- A transaction is counted and applied to the view. -/
def tallyTx (t : Tally) (tx : CTransaction) : Stateful Failure σ Tally :=
  getValueIn tx >>= fun nValueIn =>
  ofResult tx.getValueOut >>= fun nValueOut =>
  updateCoins H tx nHeight >>= fun _ =>
  pure (t.count tx nValueIn nValueOut)

/-- The transactions of a block are counted and applied one after the other. -/
def tallyTxs (vtx : List CTransaction) : Stateful Failure σ Tally :=
  fold (tallyTx H nHeight) ⟨0, 0⟩ vtx

end

/-- **The block mints within its reward**: what its coinbase and its coinstakes pay out
beyond what the coinstakes take in is at most the block value, and the fees of the other
transactions where the block is proof-of-work. -/
def MintsWithinReward (E : Env) (params : CChainParams) (block : CBlock) (nHeight : ℤ)
    (v : CCoinsViewCache) : Prop :=
  ∃ t w, (tallyTxs E.toHashing nHeight block.vtx).run v = .ok (t, w) ∧
    t.minted ≤ getBlockValue params nHeight + if block.isProofOfWork then t.fees else 0

/-! ## The loop of `ConnectBlock` counts the same -/

variable {block : CBlock} {pindex : CBlockIndex}
variable {v v' w : CCoinsViewCache} {tx : CTransaction}

/-- The fee is the value of the inputs, read once more, less that of the outputs. -/
theorem txFee_eq_ok {nFee : ℤ} (hvw : ReadMore v w) (h : (txFee tx).run v = .ok (nFee, v')) :
    ReadMore v' w ∧ (tx.isCoinStake = true → nFee = 0) ∧ (tx.isCoinStake = false →
      ∃ nValueIn w' nValueOut, (getValueIn tx).run w = .ok (nValueIn, w') ∧
        tx.getValueOut = .ok nValueOut ∧ nFee = nValueIn - nValueOut) := by
  unfold txFee at h
  by_cases hcs : tx.isCoinStake = true
  · rw [if_pos hcs] at h
    cases h
    exact ⟨hvw, fun _ => rfl, fun hf => absurd hcs (by simp [hf])⟩
  · rw [if_neg hcs] at h
    obtain ⟨nValueIn, v₁, hin, h⟩ := run_bind_eq_ok.mp h
    obtain ⟨nValueOut, hout, h⟩ := run_ofResult_bind.mp h
    cases h
    obtain ⟨w', hw, -⟩ := follows_getValueIn tx v w nValueIn _ hvw hin
    have hvw' := (ReadMore.skipsReads sampleEnv).getValueIn tx v w nValueIn _ hvw hin
    exact ⟨hvw', fun hs => absurd hs hcs, fun _ => ⟨nValueIn, w', nValueOut, hw, hout, rfl⟩⟩

theorem connectTxValues_eq_ok {values : ℤ × ℤ × List CScriptCheck} (hvw : ReadMore v w)
    (h : (connectTxValues E params N pindex tx).run v = .ok (values, v')) :
    ∃ w', (getValueIn tx).run w = .ok (values.2.1, w') ∧ ReadMore v' w' ∧
      ∀ nValueOut, tx.getValueOut = .ok nValueOut →
        values.1 = if tx.isCoinBase || tx.isCoinStake then 0 else values.2.1 - nValueOut := by
  unfold connectTxValues at h
  by_cases hcb : tx.isCoinBase = true
  · rw [if_pos hcb] at h
    cases h
    exact ⟨w, by rw [getValueIn, if_pos hcb]; rfl, hvw, fun _ _ => by rw [hcb]; rfl⟩
  · rw [if_neg hcb] at h
    obtain ⟨nFee, v₁, hfee, h⟩ := run_bind_eq_ok.mp h
    obtain ⟨nValueIn, v₂, hin, h⟩ := run_bind_eq_ok.mp h
    obtain ⟨checks, v₃, hchecks, h⟩ := run_bind_eq_ok.mp h
    cases h
    obtain ⟨hvw₁, hcs, hnot⟩ := txFee_eq_ok hvw hfee
    obtain ⟨w', hw, hvw₂⟩ := follows_getValueIn tx v₁ w nValueIn v₂ hvw₁ hin
    refine ⟨w', hw, (ReadMore.skipsReads E).checkInputs tx _ _ _ v₂ w' checks _ hvw₂ hchecks,
      fun nValueOut hout => ?_⟩
    rw [Bool.not_eq_true] at hcb
    rw [hcb, Bool.false_or]
    by_cases hstake : tx.isCoinStake = true
    · rw [if_pos hstake]
      exact hcs hstake
    · -- the inputs were read twice, with the same result
      obtain ⟨nValueIn', w'', nValueOut', hw', hout', hnFee⟩ := hnot (by simpa using hstake)
      rw [hw] at hw'
      rw [hout] at hout'
      cases hw'
      cases hout'
      rw [if_neg hstake]
      exact hnFee

/-- The totals of the loop and a count say the same. -/
structure ConnectTotals.Agrees (t : ConnectTotals) (c : Tally) : Prop where
  fees : t.nFees = c.fees
  minted : t.nValueOut - t.nValueIn + t.nFees = c.minted

variable {t t' : ConnectTotals}

theorem connectTx_tally {c : Tally} {i : ℕ} (hvw : ReadMore v w)
    (hc : t.Agrees c) (h : (connectTx E params N block pindex t (tx, i)).run v = .ok (t', v')) :
    ∃ c' w', (tallyTx E pindex.nHeight c tx).run w = .ok (c', w') ∧ ReadMore v' w' ∧
      t'.Agrees c' := by
  obtain ⟨nSigOps, -, h⟩ := run_ofResult_bind.mp h
  obtain ⟨nSigOps', v₂, hinputs, h⟩ := run_bind_eq_ok.mp h
  obtain ⟨values, v₃, hvalues, h⟩ := run_bind_eq_ok.mp h
  obtain ⟨nValueOut, hout, h⟩ := run_ofResult_bind.mp h
  obtain ⟨vprevout, v₅, hupdate, h⟩ := run_bind_eq_ok.mp h
  obtain ⟨tree, -, h⟩ := run_ofResult_bind.mp h
  cases h
  have hvw₂ := (ReadMore.skipsReads E).connectTxInputs _ _ _ w _ _ hvw hinputs
  obtain ⟨w₃, hin, hvw₃, hfee⟩ := connectTxValues_eq_ok hvw₂ hvalues
  obtain ⟨w₅, hw, hvw₅⟩ := follows_updateCoins tx _ _ _ w₃ _ _ hvw₃ hupdate
  refine ⟨c.count tx values.2.1 nValueOut, w₅, ?_, hvw₅, ?_⟩
  · unfold tallyTx
    rw [run_bind_of_ok hin, run_bind_of_ok (run_ofResult_eq_ok.mpr ⟨hout, rfl⟩), run_bind_of_ok hw]
    rfl
  · have hvalue := hfee nValueOut hout
    have hfees := hc.fees
    have hminted := hc.minted
    unfold Tally.count
    by_cases hmint : (tx.isCoinBase || tx.isCoinStake) = true
    · rw [if_pos hmint] at hvalue ⊢
      constructor
      · dsimp only
        omega
      · dsimp only
        omega
    · rw [if_neg hmint] at hvalue ⊢
      constructor
      · dsimp only
        omega
      · dsimp only
        omega

theorem connectTx_fold_tally {l : List CTransaction} {i : ℕ} {c : Tally}
    {v v' w : CCoinsViewCache} (hvw : ReadMore v w) (hc : t.Agrees c)
    (h : (fold (connectTx E params N block pindex) t (l.zipIdx i)).run v = .ok (t', v')) :
    ∃ c' w', (fold (tallyTx E pindex.nHeight) c l).run w = .ok (c', w') ∧
      t'.Agrees c' := by
  induction l generalizing i t c v w with
  | nil =>
    cases h
    exact ⟨c, w, rfl, hc⟩
  | cons tx l ih =>
    obtain ⟨t₁, v₁, htx, h⟩ := run_bind_eq_ok.mp h
    obtain ⟨c₁, w₁, hw, hvw₁, hc₁⟩ := connectTx_tally hvw hc htx
    obtain ⟨c', w', hw', hc'⟩ := ih hvw₁ hc₁ h
    refine ⟨c', w', ?_, hc'⟩
    rw [fold, run_bind_of_ok hw]
    exact hw'

/-- The totals of a block that is connected are those of its count on the view. -/
theorem connectTxs_tally
    (h : (connectTxs E params N block pindex).run v = .ok (t, v')) (hvw : ReadMore v w) :
    ∃ c w', (tallyTxs E pindex.nHeight block.vtx).run w = .ok (c, w') ∧ t.Agrees c := by
  obtain ⟨rt, v₁, hrt, h⟩ := run_bind_eq_ok.mp h
  obtain ⟨tree, v₂, htree, h⟩ := run_bind_eq_ok.mp h
  have hvw₁ := (ReadMore.skipsReads E).getBestAnchor v w rt v₁ hvw hrt
  have hvw₂ := (ReadMore.skipsReads E).getSaplingAnchorAt rt v₁ w tree v₂ hvw₁ htree
  cases tree with
  | none => cases h
  | some tree => exact connectTx_fold_tally hvw₂ ⟨rfl, rfl⟩ h

/-- What `finishConnect` returns is read off the totals. -/
theorem finishConnect_eq_ok {r : ConnectResult} {fJustCheck : Bool}
    (h : (finishConnect E params block pindex fJustCheck t).run v = .ok (r, v')) :
    r.nFees = t.nFees ∧ r.nMint = t.nValueOut - t.nValueIn + t.nFees := by
  obtain ⟨_, v₁, -, h⟩ := run_bind_eq_ok.mp h
  obtain ⟨_, -, h⟩ := run_ofResult_bind.mp h
  by_cases hjust : fJustCheck = true
  · rw [if_pos hjust] at h
    cases h
    exact ⟨rfl, rfl⟩
  · rw [if_neg hjust] at h
    obtain ⟨r', hundo, h⟩ := run_ofResult_bind.mp h
    cases h
    unfold writeUndo at hundo
    split_ifs at hundo
    · cases hundo
      exact ⟨rfl, rfl⟩
    · cases hprev : pindex.pprev with
      | none => rw [hprev] at hundo; cases hundo
      | some hashPrev =>
        rw [hprev] at hundo
        cases hundo
        exact ⟨rfl, rfl⟩

/-- **Over-minting.** A block that `ConnectBlock` accepts creates at most the block value,
and the fees where it is proof-of-work, exactly if its coinbase and its coinstakes mint
within the reward: nothing else keeps the bound. -/
theorem nMint_le_reward_iff {r : ConnectResult} {fJustCheck : Bool}
    (hgenesis : block.getHash E.toHashing ≠ params.consensus.hashGenesisBlock)
    (h : (connectBlock E params N block pindex fJustCheck).run v = .ok (r, v')) :
    r.nMint ≤ getBlockValue params pindex.nHeight + (if block.isProofOfWork then r.nFees else 0) ↔
      MintsWithinReward E params block pindex.nHeight v := by
  obtain ⟨-, best, v₁, t, v₂, hbest, -, -, htxs, hfinish⟩ := connectBlock_eq_ok hgenesis h
  have hvw := (ReadMore.skipsReads E).getBestBlock v v best v₁ (.refl v) hbest
  obtain ⟨c, w', htally, hfees, hminted⟩ := connectTxs_tally htxs hvw
  obtain ⟨hrFees, hrMint⟩ := finishConnect_eq_ok hfinish
  rw [hrMint, hrFees, hminted, hfees]
  constructor
  · intro hle
    exact ⟨c, w', htally, hle⟩
  · rintro ⟨c', w'', htally', hle⟩
    rw [htally] at htally'
    cases htally'
    exact hle

/-! ## Blocks on top of genesis -/

/-- A proof-of-work block on top of genesis, with a coinbase only that pays the given value. -/
def payingBlock (nValue : ℤ) : CBlock :=
  NodeState.sampleBlock mainParams.consensus.hashGenesisBlock 0
    [.coinbase [0x51, 0x00] [⟨nValue, [0x51]⟩]] []

/-- The index entry of a block on top of genesis. -/
def firstIndex (block : CBlock) : CBlockIndex :=
  { CBlockIndex.ofBlock (block.getHash sampleEnv.toHashing) block with
    pprev := some block.hashPrevBlock, nHeight := 1 }

/-- `ConnectBlock` for such a block. -/
def connectFirst (nValue : ℤ) : Result (ConnectResult × CCoinsViewCache) :=
  (connectBlock sampleEnv mainParams (.atGenesis mainParams) (payingBlock nValue)
    (firstIndex (payingBlock nValue)) false).run (NodeState.atGenesis mainParams).pcoinsTip

/-- A coinbase of 10 coins at height 1 is within the reward. -/
theorem nMint_le_reward_ten_coins :
    ∃ r v', connectFirst (10 * COIN) = .ok (r, v') ∧ r.nMint ≤ getBlockValue mainParams 1 +
      (if (payingBlock (10 * COIN)).isProofOfWork then r.nFees else 0) := by
  obtain ⟨⟨r, v'⟩, hrun⟩ : ∃ p, connectFirst (10 * COIN) = .ok p := by decide +kernel
  refine ⟨r, v', hrun, (nMint_le_reward_iff (by decide +kernel) hrun).mpr ?_⟩
  obtain ⟨⟨t, w⟩, htally, hle⟩ : ∃ p, (tallyTxs sampleEnv 1 (payingBlock (10 * COIN)).vtx).run
      (NodeState.atGenesis mainParams).pcoinsTip = .ok p ∧ p.1.minted ≤ 15 * COIN + p.1.fees := by
    decide +kernel
  exact ⟨t, w, htally, hle⟩

/-- **Over-minting is accepted**: a coinbase of a million coins at height 1. -/
theorem nMint_exceeds_reward :
    ¬ ∀ (E : Env) (params : CChainParams) (N : NodeState) (block : CBlock) (pindex : CBlockIndex)
        (fJustCheck : Bool) (v v' : CCoinsViewCache) (r : ConnectResult),
      block.getHash E.toHashing ≠ params.consensus.hashGenesisBlock →
      (connectBlock E params N block pindex fJustCheck).run v = .ok (r, v') →
      r.nMint ≤ getBlockValue params pindex.nHeight +
        if block.isProofOfWork then r.nFees else 0 := by
  intro hall
  obtain ⟨⟨r, v'⟩, hrun, hmint, hfees⟩ : ∃ p, connectFirst (1000000 * COIN) = .ok p ∧
      p.1.nMint = 1000000 * COIN ∧ p.1.nFees = 0 := by
    decide +kernel
  have hle := hall _ _ _ _ _ _ _ _ _ (by decide +kernel) hrun
  rw [hmint, hfees] at hle
  exact absurd hle (by decide +kernel)

end Passion
