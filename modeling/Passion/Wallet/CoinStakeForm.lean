import Mathlib.Tactic.Linarith
import Passion.Wallet.CoinStake

/-!
# The form of a created coinstake

`CreateCoinStake` in closed form. Two things can go wrong. If no output is left after one that met
the target and for which outputs could not be created, `fKernelFound` is still set, and the function
returns `true` with a transaction without inputs. And the rest of the tiers' rewards is taken from
the last output alone, which for a very small stake is not enough.
-/

namespace Passion

open List Opcode CTxOut StakeTry Option

/-! ## The amounts of a stake -/

/-- The outputs of a stake that is split in `n + 1` parts. -/
def stakeOutputs (script : CScript) (n : ℕ) (nCredit : ℤ) : List CTxOut :=
  List.replicate n ⟨nCredit.tdiv (n + 1 : ℕ), script⟩ ++
    [⟨nCredit - n * nCredit.tdiv (n + 1 : ℕ), script⟩]

/-- The rewards of the tiers can be taken from every output of a stake in `n + 1` parts. -/
def Affordable (n : ℕ) (nCredit reward : ℤ) : Prop :=
  (0 < n → reward.tdiv (n + 1 : ℕ) ≤ nCredit.tdiv (n + 1 : ℕ)) ∧
    reward - n * reward.tdiv (n + 1 : ℕ) ≤ nCredit - n * nCredit.tdiv (n + 1 : ℕ)

theorem modify_length_append {α : Type*} (l : List α) (a : α) (f : α → α) :
    (l ++ [a]).modify l.length f = l ++ [f a] := by
  rw [modify_eq_take_cons_drop (by simp)]
  simp

/-- The loop that sets the shares changes the outputs and counts what remains. -/
theorem foldl_shares (l : List ℕ) (share nRemaining : ℤ) (vout : List CTxOut) :
    l.foldl (fun (s : List CTxOut × ℤ) i =>
        (s.1.modify i (withValue share), s.2 - share)) (vout, nRemaining) =
      (l.foldl (fun vout i => vout.modify i (withValue share)) vout,
        nRemaining - l.length * share) := by
  induction l generalizing vout nRemaining with
  | nil => simp
  | cons i l ih =>
    rw [foldl_cons, ih, foldl_cons, length_cons]
    congr 1
    push_cast
    ring

theorem setOutputAmounts_eq (first : CTxOut) (script : CScript) (n : ℕ) (nCredit : ℤ) :
    setOutputAmounts (first :: replicate (n + 1) ⟨0, script⟩) nCredit =
      first :: stakeOutputs script n nCredit := by
  have hlen : (first :: replicate (n + 1) ⟨0, script⟩).length - 1 = n + 1 := by
    simp
  have hfold := foldl_modify_range' (withValue (nCredit.tdiv (n + 1 : ℕ))) [first]
    (replicate n ⟨0, script⟩) [⟨0, script⟩]
  have hvout : first :: replicate (n + 1) ⟨0, script⟩ =
      [first] ++ (replicate n ⟨0, script⟩ ++ [⟨0, script⟩]) := by
    rw [← replicate_succ', singleton_append]
  unfold setOutputAmounts
  dsimp only
  rw [hlen]
  -- a single output is the case of an empty loop
  have hsplit : (if n + 1 > 1 then
      (range' 1 (n + 1 - 1)).foldl (fun s i =>
        (s.1.modify i (withValue (nCredit.tdiv (n + 1 : ℕ))),
          s.2 - nCredit.tdiv (n + 1 : ℕ))) (first :: replicate (n + 1) ⟨0, script⟩, nCredit)
      else (first :: replicate (n + 1) ⟨0, script⟩, nCredit)) =
      (first :: (replicate n ⟨nCredit.tdiv (n + 1 : ℕ), script⟩ ++ [⟨0, script⟩]),
        nCredit - n * nCredit.tdiv (n + 1)) := by
    rcases Nat.eq_zero_or_pos n with rfl | hn
    · simp
    · rw [if_pos (by omega), foldl_shares, hvout]
      rw [length_singleton, length_replicate] at hfold
      rw [Nat.add_sub_cancel, hfold]
      simp [withValue]
  rw [hsplit]
  have hmod := modify_length_append
    (first :: replicate n ⟨nCredit.tdiv (n + 1 : ℕ), script⟩) ⟨0, script⟩
  rw [length_cons, length_replicate] at hmod
  rw [← cons_append, hmod]
  simp [stakeOutputs, withValue]

theorem deducted_stakeOutputs (script : CScript) (n : ℕ) (nCredit reward : ℤ) :
    deducted reward (stakeOutputs script n nCredit) =
      replicate n ⟨nCredit.tdiv (n + 1 : ℕ) - reward.tdiv (n + 1 : ℕ), script⟩ ++
        [⟨nCredit - n * nCredit.tdiv (n + 1 : ℕ) - (reward - n * reward.tdiv (n + 1 : ℕ)),
          script⟩] := by
  have hlen : (stakeOutputs script n nCredit).length = n + 1 := by simp [stakeOutputs]
  unfold deducted
  dsimp only
  rw [hlen, Nat.add_sub_cancel, stakeOutputs, map_append, map_replicate, map_singleton]
  have hmod := modify_length_append (replicate n (less (reward.tdiv (n + 1 : ℕ))
      ⟨nCredit.tdiv (n + 1 : ℕ), script⟩))
  rw [length_replicate] at hmod
  rw [hmod]
  unfold less
  congr 3
  push_cast
  ring

variable {n : ℕ} {nCredit reward nTime : ℤ} {signer : Signer} {t : StakeTry}
variable {tx tx' : CTransaction}

/-- The outputs of the stake stay non-negative exactly if the rewards are affordable. -/
theorem nonneg_deducted_iff {script : CScript} :
    (∀ out ∈ deducted reward (stakeOutputs script n nCredit), 0 ≤ out.nValue) ↔
      Affordable n nCredit reward := by
  rw [deducted_stakeOutputs]
  simp only [mem_append, mem_singleton, or_imp, forall_and, forall_eq, mem_replicate, and_imp,
    sub_nonneg]
  constructor
  · rintro ⟨hshare, hlast⟩
    exact ⟨fun hn => sub_nonneg.mp (hshare _ (by omega) rfl), hlast⟩
  · rintro ⟨hshare, hlast⟩
    refine ⟨?_, hlast⟩
    rintro out hn rfl
    exact sub_nonneg.mpr (hshare (by omega))

theorem valueSum_stakeOutputs (script : CScript) (n : ℕ) (nCredit : ℤ) :
    valueSum (stakeOutputs script n nCredit) = nCredit := by
  simp [stakeOutputs, valueSum]

/-- A stake that is large against the square of the number of its parts can always pay. -/
theorem affordable_of_large {value blockValue : ℤ} (h0 : 0 ≤ reward)
    (hle : reward ≤ blockValue) (hvalue : ((n : ℤ) + 1) ^ 2 ≤ value) :
    Affordable n (value + blockValue) reward := by
  have hpos : (0 : ℤ) < (n + 1) := by positivity
  have hc0 : 0 ≤ value + blockValue := by nlinarith
  have hq := Int.mul_tdiv_add_tmod (value + blockValue) (n + 1)
  have hr := Int.mul_tdiv_add_tmod reward (n + 1)
  have hq0 := Int.tmod_nonneg (n + 1) hc0
  have hr1 := Int.tmod_lt_of_pos reward hpos
  have hr0 := Int.tmod_nonneg (n + 1) h0
  have hq1 := Int.tmod_lt_of_pos (value + blockValue) hpos
  -- the quotients are at least `n` apart
  have hgap : reward.tdiv (n + 1) + n ≤ (value + blockValue).tdiv (n + 1) := by
    nlinarith
  unfold Affordable
  push_cast
  constructor
  · intro _
    omega
  · nlinarith

/-! ## The search -/

variable {pay : ℤ → ℕ → ℤ} {H : Hashing} {params : CChainParams} {mt : CMultiTier}
variable {view : CCoinsView} {wallet : CWallet} {pindexPrev : CBlockIndex} {nBits : UInt32}

section
variable (H : Hashing) (params : CChainParams) (wallet : CWallet) (pindexPrev : CBlockIndex)
variable (nBits : UInt32)

/-- The output is not spent, meets the target, and outputs can be created for it. -/
def StakeTry.usable (t : StakeTry) : Bool :=
  !t.spent H && t.hits H params pindexPrev nBits && (t.txOuts H params wallet pindexPrev).isSome

/-- The search stops here. -/
def StakeTry.stops (t : StakeTry) : Bool :=
  t.interrupted pindexPrev || t.usable H params wallet pindexPrev nBits

/-- The last output that was tried met the target. -/
def lastHits (tries : List StakeTry) (fKernelFound : Bool) : Bool :=
  tries.foldl (fun b t => if t.spent H then b else t.hits H params pindexPrev nBits) fKernelFound

end

/-- **The search in closed form.** -/
theorem searchKernel_eq (tries : List StakeTry) (s : KernelSearch) :
    (searchKernel pay H params mt view wallet pindexPrev nBits tries s).map
        (fun r => (r.fKernelFound, r.txNew)) =
      match tries.find? (·.stops H params wallet pindexPrev nBits) with
      | none => some (lastHits H params pindexPrev nBits tries s.fKernelFound, s.txNew)
      | some t =>
        if t.interrupted pindexPrev then none
        else (t.txOuts H params wallet pindexPrev).bind fun outs =>
          (finishStake pay H params mt view pindexPrev t s.txNew outs).map fun tx => (true, tx) := by
  induction tries generalizing s with
  | nil => rfl
  | cons t ts ih =>
    unfold searchKernel
    rw [find?_cons]
    by_cases hint : t.interrupted pindexPrev = true
    · simp [stops, hint]
    · by_cases hspent : t.spent H = true
      · simp [stops, usable, hint, hspent, ih, lastHits]
      · by_cases hhit : t.hits H params pindexPrev nBits = true
        · cases houts : t.txOuts H params wallet pindexPrev with
          | none => simp [stops, usable, hint, hspent, hhit, houts, ih, lastHits]
          | some outs =>
            simp [stops, usable, hint, hspent, hhit, houts, Function.comp_def]
        · simp [stops, usable, hint, hspent, hhit, ih, lastHits]

/-! ## Signing -/

/-- Signing an input changes only script signatures. -/
theorem signInput_eq_some {nIn : ℕ} (h : signInput signer tx nIn = some tx') :
    tx'.vout = tx.vout ∧ tx'.vin.map (·.prevout) = tx.vin.map (·.prevout) := by
  unfold signInput at h
  split at h
  · cases h
  · split at h
    · cases h
    · dsimp only at h
      split at h
      · cases h
        refine ⟨rfl, ext_getElem? fun j => ?_⟩
        rw [getElem?_map, getElem?_map, getElem?_modify]
        cases tx.vin[j]? with
        | none => rfl
        | some txin =>
          by_cases hj : nIn = j
          · simp [hj]
          · simp [hj]
      · cases h

theorem foldlM_signInput {l : List ℕ} (h : l.foldlM (signInput signer) tx = some tx') :
    tx'.vout = tx.vout ∧ tx'.vin.map (·.prevout) = tx.vin.map (·.prevout) := by
  induction l generalizing tx with
  | nil =>
    cases h
    exact ⟨rfl, rfl⟩
  | cons nIn l ih =>
    obtain ⟨tx₁, h₁, h₂⟩ := bind_eq_some_iff.mp h
    obtain ⟨hout₁, hin₁⟩ := signInput_eq_some h₁
    obtain ⟨hout, hin⟩ := ih h₂
    exact ⟨hout.trans hout₁, hin.trans hin₁⟩

/-- A wallet that knows every transaction and signs everything. -/
def Signer.willing : Signer := ⟨fun _ => some (.plain [] []), fun _ _ _ => (true, [])⟩

theorem exists_signed_willing (tx : CTransaction) (h : tx.vin.length ≤ 1) :
    ∃ tx', (range tx.vin.length).foldlM (signInput .willing) tx = some tx' := by
  match hvin : tx.vin, h with
  | [], _ => exact ⟨tx, rfl⟩
  | [txin], _ =>
    refine ⟨{ tx with vin := [{ txin with scriptSig := [] }] }, ?_⟩
    simp [signInput, Signer.willing, hvin]

/-! ## The created transaction -/

/-- **A well-formed coinstake for an output**: it has this one input, an empty first output
and further outputs, none of them negative, and together they have the staked value and the
reward. -/
structure IsStakeOf (H : Hashing) (params : CChainParams) (pindexPrev : CBlockIndex)
    (coin : CStakeableOutput) (tx : CTransaction) : Prop where
  input : tx.vin.map (·.prevout) = [coin.outPoint H]
  first : tx.vout.head?.any CTxOut.isEmpty = true
  outputs : 2 ≤ tx.vout.length
  isCoinStake : tx.isCoinStake = true
  nonneg : ∀ out ∈ tx.vout, 0 ≤ out.nValue
  total : valueSum tx.vout =
    (coin.stakeInput H).getValue + getBlockValue params (pindexPrev.nHeight + 1)

/-- The transaction with the outputs of the stake is below the size limit. -/
def FitsLimit (txNew : CTransaction) (stakes : List CTxOut) : Prop :=
  ({ txNew with vin := [], vout := ⟨0, []⟩ :: stakes } : CTransaction).serialize.length <
    DEFAULT_BLOCK_MAX_SIZE / 5

theorem splitCount_bounds (threshold nTotal : ℤ) :
    0 < splitCount threshold nTotal ∧ splitCount threshold nTotal ≤ 48 := by
  have h48 : MAX_STANDARD_TX_SIZE >>> 11 = 48 := rfl
  unfold splitCount
  dsimp only
  split_ifs <;> omega

/-- The outputs of a stake are copies of one output without value. -/
theorem txOuts_eq_some {outs : List CTxOut} (h : t.txOuts H params wallet pindexPrev = some outs) :
    ∃ script n, n < 48 ∧ outs = replicate (n + 1) ⟨0, script⟩ := by
  obtain ⟨script, -, rfl⟩ := map_eq_some_iff.mp h
  obtain ⟨hpos, hle⟩ := splitCount_bounds wallet.nStakeSplitThreshold (t.credit H params pindexPrev)
  obtain ⟨n, hn⟩ := Nat.exists_eq_add_one.mpr hpos
  exact ⟨script, n, by omega, by rw [hn]⟩

theorem stakeOutputs_ne_nil (script : CScript) (n : ℕ) (nCredit : ℤ) :
    stakeOutputs script n nCredit ≠ [] := by
  simp [stakeOutputs]

section
variable (H : Hashing) (params : CChainParams) (wallet : CWallet) (pindexPrev : CBlockIndex)
variable (nBits : UInt32)

/-- **A kernel without a coinstake**: nothing interrupts the search and it finds no usable
output, but the last output that was tried met the target. -/
def FalseStart (tries : List StakeTry) : Prop :=
  tries.find? (·.stops H params wallet pindexPrev nBits) = none ∧
    lastHits H params pindexPrev nBits tries false = true

/-- **The search stops at an output**, with `n + 1` outputs for its stake that are below the
size limit. -/
structure StopsAt (txNew : CTransaction) (tries : List StakeTry) (t : StakeTry)
    (script : CScript) (n : ℕ) : Prop where
  found : tries.find? (·.stops H params wallet pindexPrev nBits) = some t
  runs : t.interrupted pindexPrev = false
  outs : t.txOuts H params wallet pindexPrev = some (List.replicate (n + 1) ⟨0, script⟩)
  fits : FitsLimit txNew (stakeOutputs script n (t.credit H params pindexPrev))

/-- What the tiers get from the next block. -/
def nextTiers (pay : ℤ → ℕ → ℤ) (mt : CMultiTier) (view : CCoinsView) : List CTxOut :=
  tierOutputs pay H mt view pindexPrev (getBlockValue params (pindexPrev.nHeight + 1))
    multiTierLevels

/-- The transaction before it is signed. -/
def stakeTx (txNew : CTransaction) (tiers : List CTxOut) (t : StakeTry) (script : CScript)
    (n : ℕ) : CTransaction :=
  { txNew with
    vin := [⟨t.coin.outPoint H, [], 0xffffffff⟩]
    vout := ⟨0, []⟩ :: (deducted (valueSum tiers)
      (stakeOutputs script n (t.credit H params pindexPrev)) ++ tiers) }

end

variable {script : CScript} {txNew : CTransaction}

/-- The end of the loop's body in closed form. -/
theorem finishStake_eq_some_iff :
    finishStake pay H params mt view pindexPrev t { txNew with vin := [], vout := [⟨0, []⟩] }
        (replicate (n + 1) ⟨0, script⟩) = some tx ↔
      FitsLimit txNew (stakeOutputs script n (t.credit H params pindexPrev)) ∧
        tx = stakeTx H params pindexPrev txNew (nextTiers H params pindexPrev pay mt view) t
          script n := by
  unfold finishStake FitsLimit stakeTx nextTiers
  dsimp only
  rw [singleton_append, setOutputAmounts_eq,
    fillTransactionMultiTier_eq (stakeOutputs_ne_nil _ _ _)]
  split_ifs with hsize
  · constructor
    · intro h
      cases h
    · rintro ⟨hlt, -⟩
      omega
  · constructor
    · intro h
      exact ⟨by omega, (some.inj h).symm⟩
    · rintro ⟨-, rfl⟩
      rfl

variable {tries : List StakeTry}

/-- **What the search finds.** -/
theorem searchKernel_found_iff {txNew tx₀ : CTransaction} :
    (searchKernel pay H params mt view wallet pindexPrev nBits tries
        ⟨false, { txNew with vin := [], vout := [⟨0, []⟩] }, nTime⟩).map
          (fun r => (r.fKernelFound, r.txNew)) = some (true, tx₀) ↔
      (FalseStart H params wallet pindexPrev nBits tries ∧
        tx₀ = { txNew with vin := [], vout := [⟨0, []⟩] }) ∨
      ∃ t script n, StopsAt H params wallet pindexPrev nBits txNew tries t script n ∧
        tx₀ = stakeTx H params pindexPrev txNew (nextTiers H params pindexPrev pay mt view) t
          script n := by
  rw [searchKernel_eq]
  constructor
  · intro h
    split at h
    · next hfind =>
      obtain ⟨hlast, htx⟩ := Prod.mk.inj (some.inj h)
      exact .inl ⟨⟨hfind, hlast⟩, htx.symm⟩
    · next t hfind =>
      split at h
      · cases h
      · next hrun =>
        obtain ⟨outs, houts, h⟩ := bind_eq_some_iff.mp h
        obtain ⟨tx, hfin, htx⟩ := map_eq_some_iff.mp h
        obtain ⟨script, n, -, rfl⟩ := txOuts_eq_some houts
        obtain ⟨hfits, rfl⟩ := finishStake_eq_some_iff.mp hfin
        refine .inr ⟨t, script, n, ⟨hfind, by simpa using hrun, houts, hfits⟩, ?_⟩
        exact (Prod.mk.inj htx).2.symm
  · rintro (⟨⟨hfind, hlast⟩, rfl⟩ | ⟨t, script, n, hstop, rfl⟩)
    · rw [hfind, hlast]
    · rw [hstop.found]
      dsimp only
      rw [hstop.runs, hstop.outs, bind_some, finishStake_eq_some_iff.mpr ⟨hstop.fits, rfl⟩]
      rfl

/-- What the function returns is what the search has found, signed. -/
theorem exists_createCoinStake_iff :
    (∃ time, createCoinStake pay H params mt view wallet pindexPrev nBits signer txNew nTime tries =
        some (tx, time)) ↔
      ∃ tx₀, (searchKernel pay H params mt view wallet pindexPrev nBits tries
          ⟨false, { txNew with vin := [], vout := [⟨0, []⟩] }, nTime⟩).map
            (fun r => (r.fKernelFound, r.txNew)) = some (true, tx₀) ∧
        (range tx₀.vin.length).foldlM (signInput signer) tx₀ = some tx := by
  unfold createCoinStake
  dsimp only
  cases searchKernel pay H params mt view wallet pindexPrev nBits tries
      ⟨false, { txNew with vin := [], vout := [⟨0, []⟩] }, nTime⟩ with
  | none => simp
  | some s =>
    obtain ⟨fKernelFound, tx₀, time⟩ := s
    cases fKernelFound
    · simp
    · simp [bind_eq_some_iff]

theorem isNull_outPoint (coin : CStakeableOutput) : (coin.outPoint H).isNull = false := by
  have hne : UInt32.ofNat coin.i ≠ 0xffffffff := by
    intro heq
    have hnat := congrArg UInt32.toNat heq
    have hlt := coin.index_int
    rw [UInt32.toNat_ofNat'] at hnat
    have : (0xffffffff : UInt32).toNat = 4294967295 := rfl
    omega
  simp [COutPoint.isNull, CStakeableOutput.outPoint, hne]

variable {coin : CStakeableOutput}

/-- One input of the wallet and an output behind the empty one make a coinstake. -/
theorem isCoinStake_of_outPoint {o : CTxOut} {rest : List CTxOut}
    (hin : tx.vin.map (·.prevout) = [coin.outPoint H]) (hout : tx.vout = ⟨0, []⟩ :: o :: rest) :
    tx.isCoinStake = true := by
  obtain ⟨txin, hvin⟩ : ∃ txin, tx.vin = [txin] :=
    length_eq_one_iff.mp (by simpa using congrArg length hin)
  have hprev : txin.prevout = coin.outPoint H := by simpa [hvin] using hin
  simp [CTransaction.isCoinStake, hvin, hprev, isNull_outPoint, hout, CTxOut.isEmpty]

/-- The outputs of the stake are one and some more. -/
theorem exists_deducted_cons (script : CScript) (n : ℕ) (nCredit reward : ℤ) :
    ∃ o rest, deducted reward (stakeOutputs script n nCredit) = o :: rest ∧
      o.scriptPubKey = script ∧ ∀ out ∈ rest, out.scriptPubKey = script := by
  have hall : ∀ out ∈ deducted reward (stakeOutputs script n nCredit),
      out.scriptPubKey = script := by
    intro out hout
    rw [deducted_stakeOutputs] at hout
    rcases mem_append.mp hout with hout | hout
    · rw [eq_of_mem_replicate hout]
    · rw [mem_singleton.mp hout]
  cases hl : deducted reward (stakeOutputs script n nCredit) with
  | nil =>
    have hlen := congrArg length hl
    simp [stakeOutputs] at hlen
  | cons o rest =>
    rw [hl] at hall
    exact ⟨o, rest, rfl, hall o (mem_cons_self ..),
      fun out hout => hall out (mem_cons_of_mem _ hout)⟩

/-- The created transaction, when the search has stopped at an output. -/
theorem isStakeOf_of_affordable {tiers : List CTxOut}
    (hin : tx.vin.map (·.prevout) = [coin.outPoint H]) (hcredit : nCredit =
      (coin.stakeInput H).getValue + getBlockValue params (pindexPrev.nHeight + 1))
    (hout : tx.vout = ⟨0, []⟩ :: (deducted (valueSum tiers) (stakeOutputs script n nCredit) ++ tiers))
    (htiers : ∀ out ∈ tiers, 0 ≤ out.nValue) (h : Affordable n nCredit (valueSum tiers)) :
    IsStakeOf H params pindexPrev coin tx := by
  have hlen : (deducted (valueSum tiers) (stakeOutputs script n nCredit)).length = n + 1 := by
    simp [stakeOutputs]
  refine ⟨hin, ?_, ?_, ?_, ?_, ?_⟩
  · rw [hout]
    rfl
  · rw [hout, length_cons, length_append, hlen]
    omega
  · obtain ⟨o, rest, hrest, -⟩ := exists_deducted_cons script n nCredit (valueSum tiers)
    rw [hrest, cons_append] at hout
    exact isCoinStake_of_outPoint hin hout
  · intro out hmem
    rw [hout] at hmem
    rcases mem_cons.mp hmem with rfl | hmem
    · exact le_rfl
    rcases mem_append.mp hmem with hmem | hmem
    · exact nonneg_deducted_iff.mpr h out hmem
    · exact htiers out hmem
  · rw [hout, valueSum_cons, valueSum_append, valueSum_deducted _ (stakeOutputs_ne_nil _ _ _),
      valueSum_stakeOutputs, hcredit]
    dsimp only
    ring

theorem nonneg_of_mem_nextTiers (hpay : ∀ level ∈ multiTierLevels,
      0 ≤ pay (getBlockValue params (pindexPrev.nHeight + 1)) level) :
    ∀ out ∈ nextTiers H params pindexPrev pay mt view, 0 ≤ out.nValue := by
  intro out hout
  obtain ⟨level, hlevel, -, hval⟩ := mem_tierOutputs.mp hout
  exact hval ▸ hpay level hlevel

/-- **When `CreateCoinStake` returns well-formed coinstakes only**, whatever the wallet signs:
if there is no false start, and the stake at which the search stops can pay the tiers. -/
theorem createCoinStake_wellFormed_iff
    (hpay : ∀ level ∈ multiTierLevels,
      0 ≤ pay (getBlockValue params (pindexPrev.nHeight + 1)) level)
    (txNew : CTransaction) (nTxNewTime : ℤ) (tries : List StakeTry) :
    (∀ signer tx time, createCoinStake pay H params mt view wallet pindexPrev nBits signer txNew
        nTxNewTime tries = some (tx, time) →
      ∃ t ∈ tries, IsStakeOf H params pindexPrev t.coin tx) ↔
    ¬ FalseStart H params wallet pindexPrev nBits tries ∧
      ∀ t script n, StopsAt H params wallet pindexPrev nBits txNew tries t script n →
        Affordable n (t.credit H params pindexPrev)
          (valueSum (nextTiers H params pindexPrev pay mt view)) := by
  constructor
  · intro hall
    constructor
    · -- there is nothing to sign: the transaction is returned without inputs
      intro hfalse
      obtain ⟨time, hcreate⟩ := exists_createCoinStake_iff.mpr
        ⟨_, searchKernel_found_iff.mpr (.inl ⟨hfalse, rfl⟩), rfl⟩
      obtain ⟨t, -, hwf⟩ := hall .willing _ time hcreate
      have hin := hwf.input
      simp at hin
    · intro t script n hstop
      obtain ⟨tx, hsign⟩ := exists_signed_willing (stakeTx H params pindexPrev txNew
        (nextTiers H params pindexPrev pay mt view) t script n) le_rfl
      obtain ⟨time, hcreate⟩ := exists_createCoinStake_iff.mpr
        ⟨_, searchKernel_found_iff.mpr (.inr ⟨t, script, n, hstop, rfl⟩), hsign⟩
      obtain ⟨hout, -⟩ := foldlM_signInput hsign
      obtain ⟨t', -, hwf⟩ := hall .willing tx time hcreate
      rw [← nonneg_deducted_iff]
      intro out hmem
      refine hwf.nonneg out ?_
      rw [hout]
      exact mem_cons_of_mem _ (mem_append_left _ hmem)
  · rintro ⟨hfalse, hpays⟩ signer tx time hcreate
    obtain ⟨tx₀, hsearch, hsign⟩ := exists_createCoinStake_iff.mp ⟨time, hcreate⟩
    rcases searchKernel_found_iff.mp hsearch with ⟨hstart, -⟩ | ⟨t, script, n, hstop, rfl⟩
    · exact absurd hstart hfalse
    · obtain ⟨hout, hin⟩ := foldlM_signInput hsign
      refine ⟨t, mem_of_find?_eq_some hstop.found, ?_⟩
      exact isStakeOf_of_affordable hin rfl hout (nonneg_of_mem_nextTiers hpay)
        (hpays t script n hstop)

/-- Where only large values may stake, the stake can pay the tiers. -/
theorem StopsAt.affordable {txNew : CTransaction}
    (hmin : 48 ^ 2 ≤ params.consensus.nMinStakeValue) (hpay : ∀ level ∈ multiTierLevels,
      0 ≤ pay (getBlockValue params (pindexPrev.nHeight + 1)) level)
    (hsum : (multiTierLevels.map (pay (getBlockValue params (pindexPrev.nHeight + 1)))).sum ≤
      getBlockValue params (pindexPrev.nHeight + 1))
    (h : StopsAt H params wallet pindexPrev nBits txNew tries t script n) :
    Affordable n (t.credit H params pindexPrev)
      (valueSum (nextTiers H params pindexPrev pay mt view)) := by
  have hstop : t.stops H params wallet pindexPrev nBits = true :=
    find?_some h.found
  have hhit : t.hits H params pindexPrev nBits = true := by
    simp only [stops, h.runs, usable, Bool.false_or, Bool.and_eq_true] at hstop
    exact hstop.1.2
  have hvalue : params.consensus.nMinStakeValue < (t.coin.stakeInput H).getValue := by
    unfold hits stake at hhit
    split at hhit
    · cases hhit
    · exact of_decide_eq_true (Bool.and_eq_true_iff.mp hhit).2
  have hn : n < 48 := by
    obtain ⟨script', n', hn', hrep⟩ := txOuts_eq_some h.outs
    have hlen := congrArg length hrep
    simp only [length_replicate] at hlen
    omega
  refine affordable_of_large ?_ ?_ ?_
  · exact valueSum_nonneg (nonneg_of_mem_nextTiers hpay)
  · exact (valueSum_tierOutputs_le hpay).trans hsum
  · nlinarith

/-! ## One output to stake -/

/-- An output script that pays to a script hash. -/
def payToScriptHash : CScript := OP_HASH160 :: 0x14 :: List.replicate 20 0 ++ [OP_EQUAL]

/-- An output script that pays to a public key. -/
def stakeScript : CScript := 33 :: 2 :: List.replicate 32 0 ++ [OP_CHECKSIG]

/-- An output of 400 coins, tried while nothing happens. -/
def stakeTry (script : CScript) : StakeTry where
  coin := ⟨.plain [] [⟨400 * COIN, script⟩], 0, tierParent, Nat.zero_lt_one, by decide⟩
  now := ⟨tierParent.nHeight, false, false, fun _ => false, 150⟩

/-- A wallet that does not split and has no keys. -/
def plainWallet : CWallet := ⟨0, fun _ => none⟩

/-- The tiers pay nothing negative, and what a wallet with one output creates stakes it. -/
theorem createCoinStake_wellFormed_stakeScript :
    (∀ level ∈ multiTierLevels,
      0 ≤ getMultiTierValue (getBlockValue mainParams (tierParent.nHeight + 1)) level) ∧
    ∀ signer tx time, createCoinStake getMultiTierValue sampleEnv.toHashing mainParams tierRegister
        (tierView [0x51] [0x52]) plainWallet tierParent 0x1d00ffff signer (.plain [] []) 0
        [stakeTry stakeScript] = some (tx, time) →
      ∃ t ∈ [stakeTry stakeScript],
        IsStakeOf sampleEnv.toHashing mainParams tierParent t.coin tx := by
  have hpay : ∀ level ∈ multiTierLevels,
      0 ≤ getMultiTierValue (getBlockValue mainParams (tierParent.nHeight + 1)) level :=
    fun level _ => getMultiTierValue_nonneg (getBlockValue_nonneg _ _) level
  refine ⟨hpay, (createCoinStake_wellFormed_iff hpay _ _ _).mpr ⟨?_, ?_⟩⟩
  · rintro ⟨hfind, -⟩
    revert hfind
    decide +kernel
  · intro t script n hstop
    exact hstop.affordable (by decide) hpay (by decide +kernel)

/-- **A coinstake without an input.** The only output of the wallet pays to a script hash. It
meets the target, no outputs are created for it, and the function returns `true`. -/
theorem createCoinStake_without_input :
    ¬ ∀ (pay : ℤ → ℕ → ℤ) (H : Hashing) (params : CChainParams) (mt : CMultiTier)
        (view : CCoinsView) (wallet : CWallet) (pindexPrev : CBlockIndex) (nBits : UInt32)
        (signer : Signer) (txNew tx : CTransaction) (nTxNewTime time : ℤ) (tries : List StakeTry),
      (∀ level ∈ multiTierLevels, 0 ≤ pay (getBlockValue params (pindexPrev.nHeight + 1)) level) →
      (multiTierLevels.map (pay (getBlockValue params (pindexPrev.nHeight + 1)))).sum ≤
        getBlockValue params (pindexPrev.nHeight + 1) →
      createCoinStake pay H params mt view wallet pindexPrev nBits signer txNew nTxNewTime tries =
        some (tx, time) →
      ∃ t ∈ tries, IsStakeOf H params pindexPrev t.coin tx := by
  intro hall
  have hcreate : createCoinStake getMultiTierValue sampleEnv mainParams tierRegister
      (tierView [0x51] [0x52]) plainWallet tierParent 0x1d00ffff .willing (.plain [] []) 0
      [stakeTry payToScriptHash] = some (.plain [] [⟨0, []⟩], 150) := by
    decide +kernel
  obtain ⟨t, -, hwf⟩ := hall _ _ _ _ _ _ _ _ _ _ _ _ _ _
    (fun level _ => getMultiTierValue_nonneg (getBlockValue_nonneg _ _) level) (by decide +kernel)
    hcreate
  have hin := hwf.input
  simp [CTransaction.plain] at hin

end Passion
