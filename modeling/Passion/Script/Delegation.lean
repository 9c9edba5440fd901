import Passion.Script.Interpreter
import Passion.Script.Standard

/-!
# Who can spend a delegated output

A delegation is spent with a public key, a signature and a flag between them. With a true flag the
transaction has to be a cold stake and the key that of the staker, with a false one the key has to
be the owner's.
-/

namespace Passion

open Except Opcode

namespace Script

variable {c : EvalContext} {t : EvalState} {pc code : CScript} {stack : List Bytes} {n : ℕ}

/-! ## The template, piece by piece -/

/-- The key on top is hashed, and the flag below it is put on top. -/
theorem Runs.hashKey
    (h : Runs c ⟨OP_DUP :: OP_HASH160 :: OP_ROT :: OP_IF :: pc, stack, [], [], n, code⟩ t) :
    ∃ pk flag rest n', stack = pk :: flag :: rest ∧
      Runs c ⟨pc, (c.env.hash160 pk).val :: pk :: rest, [], [castToBool flag], n', code⟩ t := by
  obtain ⟨n₁, s₁, hdup, h⟩ := h.exec (by decide) rfl
  match stack, hdup with
  | [], hdup => cases hdup
  | pk :: stack, hdup =>
    cases hdup
    obtain ⟨n₂, s₂, hhash, h⟩ := h.exec (by decide) rfl
    cases hhash
    obtain ⟨n₃, s₃, hrot, h⟩ := h.exec (by decide) rfl
    match stack, hrot with
    | [], hrot => cases hrot
    | flag :: rest, hrot =>
      cases hrot
      obtain ⟨n₄, s₄, hif, h⟩ := h.conditional (by decide)
      cases hif
      exact ⟨pk, flag, rest, n₄, rfl, h⟩

/-- The two branches: a key hash is pushed, that of the staker after the check of the cold
stake. -/
theorem Runs.branches {staker owner : CKeyID} {flag : Bool}
    (h : Runs c ⟨OP_CHECKCOLDSTAKEVERIFY :: 0x14 :: (staker.val ++ OP_ELSE :: 0x14 ::
      (owner.val ++ OP_ENDIF :: pc)), stack, [], [flag], n, code⟩ t) :
    ∃ n', if flag then
        c.checker.checkColdStake c.script = true ∧
          Runs c ⟨pc, staker.val :: stack, [], [], n', code⟩ t
      else Runs c ⟨pc, owner.val :: stack, [], [], n', code⟩ t := by
  cases flag with
  | true =>
    obtain ⟨n₁, s₁, hcold, h⟩ := h.exec (by decide) rfl
    change (if c.checker.checkColdStake c.script then ok _ else error _) = _ at hcold
    split_ifs at hcold with hcheck
    cases hcold
    obtain ⟨n₂, h⟩ := h.push (by decide) staker.property rfl
    obtain ⟨n₃, s₃, helse, h⟩ := h.conditional (by decide)
    cases helse
    obtain ⟨n₄, h⟩ := h.skipPush (by decide) owner.property rfl
    obtain ⟨n₅, s₅, hendif, h⟩ := h.conditional (by decide)
    cases hendif
    exact ⟨n₅, hcheck, h⟩
  | false =>
    obtain ⟨n₁, h⟩ := h.skip (by decide) (by decide) rfl
    obtain ⟨n₂, h⟩ := h.skipPush (by decide) staker.property rfl
    obtain ⟨n₃, s₃, helse, h⟩ := h.conditional (by decide)
    cases helse
    obtain ⟨n₄, h⟩ := h.push (by decide) owner.property rfl
    obtain ⟨n₅, s₅, hendif, h⟩ := h.conditional (by decide)
    cases hendif
    exact ⟨n₅, h⟩

/-- The hash of the key is the one pushed, and the signature below is checked. -/
theorem Runs.checkKey {key hash pk : Bytes} {rest : List Bytes}
    (h : Runs c ⟨[OP_EQUALVERIFY, OP_CHECKSIG], key :: hash :: pk :: rest, [], [], n, code⟩ t) :
    hash = key ∧ ∃ sig rest' fSuccess, rest = sig :: rest' ∧
      checkedSig c sig pk (findAndDelete (CScript.pushData sig) code) = .ok fSuccess ∧
      t.stack = vchBool fSuccess :: rest' := by
  obtain ⟨n₁, s₁, hop₁, h⟩ := h.exec (by decide) rfl
  obtain ⟨stack₁, hequal, rfl⟩ := map_eq_ok.mp hop₁
  change (if hash == key then ok _ else error _) = _ at hequal
  split_ifs at hequal with heq
  cases hequal
  refine ⟨eq_of_beq heq, ?_⟩
  obtain ⟨n₂, s₂, hop₂, h⟩ := h.exec (by decide) rfl
  obtain ⟨stack₂, hsig, rfl⟩ := map_eq_ok.mp hop₂
  match rest, hsig with
  | [], hsig => cases hsig
  | sig :: rest', hsig =>
    obtain ⟨fSuccess, hchecked, hsig⟩ := bind_eq_ok.mp hsig
    cases hsig
    obtain rfl := (runs_of_pc_nil rfl).mp h
    exact ⟨sig, rest', fSuccess, rfl, hchecked, rfl⟩

/-- A signature that is checked has been accepted by the checker. -/
theorem checkSig_of_checkedSig {sig pk scriptCode : Bytes} {fOk : Bool}
    (h : checkedSig c sig pk scriptCode = .ok fOk) :
    c.checker.checkSig sig pk scriptCode c.sigversion = some fOk := by
  obtain ⟨_, -, h⟩ := bind_eq_ok.mp h
  obtain ⟨_, -, h⟩ := bind_eq_ok.mp h
  split at h
  · cases h
  · next b hb =>
    cases h
    exact hb

theorem eq_true_of_topTrue {fSuccess : Bool} {rest : List Bytes}
    (h : topTrue (vchBool fSuccess :: rest) = true) : fSuccess = true := by
  cases fSuccess with
  | true => rfl
  | false => cases h

/-- **A run of a delegation that leaves true**: there is a key with an accepted signature, and
the flag between them says whose key it is. -/
theorem delegation_runs {staker owner : CKeyID} {stack' : List Bytes}
    (hscript : c.script = getScriptForStakeDelegation staker owner)
    (h : evalScript c stack = .ok stack') (htop : topTrue stack' = true) :
    ∃ pk flag sig rest, stack = pk :: flag :: sig :: rest ∧
      c.checker.checkSig sig pk (findAndDelete (CScript.pushData sig) c.script) c.sigversion =
        some true ∧
      if castToBool flag then
        c.env.hash160 pk = staker ∧ c.checker.checkColdStake c.script = true
      else c.env.hash160 pk = owner := by
  obtain ⟨-, t, hrun, -, rfl⟩ := evalScript_eq_ok.mp h
  have hstart : Runs c ⟨OP_DUP :: OP_HASH160 :: OP_ROT :: OP_IF :: OP_CHECKCOLDSTAKEVERIFY :: 0x14 ::
      (staker.val ++ OP_ELSE :: 0x14 :: (owner.val ++ OP_ENDIF :: [OP_EQUALVERIFY, OP_CHECKSIG])),
      stack, [], [], 0, c.script⟩ t := by
    have hpc := hscript.trans (getScriptForStakeDelegation_eq staker owner)
    rw [EvalState.start] at hrun
    exact (congrArg (fun pc => Runs c ⟨pc, stack, [], [], 0, c.script⟩ t) hpc).mp hrun
  obtain ⟨pk, flag, rest, n₁, rfl, hbranches⟩ := hstart.hashKey
  obtain ⟨n₂, hend⟩ := hbranches.branches
  -- in both branches the hash of the key is compared with the one pushed
  have hfinish : ∀ key : CKeyID, Runs c ⟨[OP_EQUALVERIFY, OP_CHECKSIG], key.val ::
      (c.env.hash160 pk).val :: pk :: rest, [], [], n₂, c.script⟩ t →
        c.env.hash160 pk = key ∧ ∃ sig rest', rest = sig :: rest' ∧
          c.checker.checkSig sig pk (findAndDelete (CScript.pushData sig) c.script) c.sigversion =
            some true := by
    intro key hkey
    obtain ⟨hhash, sig, rest', fSuccess, rfl, hchecked, hstack⟩ := hkey.checkKey
    rw [hstack] at htop
    obtain rfl := eq_true_of_topTrue htop
    exact ⟨Subtype.ext hhash, sig, rest', rfl, checkSig_of_checkedSig hchecked⟩
  by_cases hflag : castToBool flag = true
  · rw [if_pos hflag] at hend
    obtain ⟨hhash, sig, rest', rfl, hsig⟩ := hfinish staker hend.2
    exact ⟨pk, flag, sig, rest', rfl, hsig, by rw [if_pos hflag]; exact ⟨hhash, hend.1⟩⟩
  · rw [if_neg hflag] at hend
    obtain ⟨hhash, sig, rest', rfl, hsig⟩ := hfinish owner hend
    exact ⟨pk, flag, sig, rest', rfl, hsig, by rw [if_neg hflag]; exact hhash⟩

end Script

/-! ## The check of a cold stake -/

namespace TransactionSignatureChecker

open MachineNumber

variable {t : TransactionSignatureChecker} {script : CScript}

/-- The value of the outputs of a transaction that carry a script. -/
def valueOf (script : CScript) (vout : List CTxOut) : ℤ :=
  ((vout.filter fun out => decide (out.scriptPubKey = script)).map (·.nValue)).sum

variable (t script) in
/-- **A cold stake**: a coinstake with a single input, whose outputs behind the first carry the
script, the last of at least three excepted, and put more than the amount on it. -/
structure IsColdStake : Prop where
  isCoinStake : t.txTo.isCoinStake = true
  singleInput : t.txTo.vin.length = 1
  scripts : ∀ i out, 1 ≤ i → t.txTo.vout[i]? = some out →
    out.scriptPubKey = script ∨ (i = t.txTo.vout.length - 1 ∧ 3 ≤ t.txTo.vout.length)
  value : t.amount < valueOf script t.txTo.vout

/-- What the loop over the outputs has found when it returns a value: the sum is taken in 64
bits. -/
theorem coldStakeValue_eq_some {outs i : ℕ} {l : List CTxOut} {v w : ℤ} (hv : toInt64 v = v)
    (h : coldStakeValue script outs i l v = some w) :
    (∀ j out, l[j]? = some out → out.scriptPubKey = script ∨ (i + j = outs - 1 ∧ 3 ≤ outs)) ∧
      w = toInt64 (v + valueOf script l) := by
  induction l generalizing i v with
  | nil =>
    cases h
    simp [valueOf, hv]
  | cons out l ih =>
    unfold coldStakeValue at h
    by_cases hscript : out.scriptPubKey = script
    · rw [if_neg (not_not.mpr hscript)] at h
      obtain ⟨hrest, rfl⟩ := ih (toInt64_toInt64 _) h
      constructor
      · intro j out' hj
        cases j with
        | zero =>
          cases hj
          exact .inl hscript
        | succ j =>
          rcases hrest j out' hj with hj | ⟨hlast, hthree⟩
          · exact .inl hj
          · exact .inr ⟨by omega, hthree⟩
      · simp [valueOf, hscript, add_assoc]
    · rw [if_pos hscript] at h
      split_ifs at h with hlast
      obtain ⟨hrest, rfl⟩ := ih hv h
      constructor
      · intro j out' hj
        cases j with
        | zero => exact .inr ⟨by omega, by omega⟩
        | succ j =>
          rcases hrest j out' hj with hj | ⟨hj, hthree⟩
          · exact .inl hj
          · exact .inr ⟨by omega, hthree⟩
      · simp [valueOf, hscript]

/-- The first output of a coinstake has no script. -/
theorem valueOf_drop_one (hne : script ≠ []) (h : t.txTo.isCoinStake = true) :
    valueOf script (t.txTo.vout.drop 1) = valueOf script t.txTo.vout := by
  unfold CTransaction.isCoinStake at h
  split at h
  · cases h
  · split_ifs at h
    split at h
    · next first second rest hvout =>
      have hfirst : first.scriptPubKey = [] := by
        simp only [CTxOut.isEmpty, Bool.and_eq_true, List.isEmpty_iff] at h
        exact h.2
      rw [hvout]
      simp [valueOf, hfirst, hne.symm]
    · cases h

/-- **What `CheckColdStake` accepts is a cold stake**, if the sum fits into 64 bits. -/
theorem isColdStake_of_checkColdStake (hne : script ≠ [])
    (hlo : -2 ^ 63 ≤ valueOf script t.txTo.vout) (hhi : valueOf script t.txTo.vout < 2 ^ 63)
    (h : t.checkColdStake script = true) : t.IsColdStake script := by
  unfold checkColdStake at h
  split_ifs at h with hstake hvin
  have hstake' : t.txTo.isCoinStake = true := by simpa using hstake
  obtain ⟨w, hw, hlt⟩ := (Option.any_eq_true _ _).mp h
  obtain ⟨hscripts, rfl⟩ := coldStakeValue_eq_some rfl hw
  rw [zero_add, valueOf_drop_one hne hstake', toInt64_of_range hlo hhi] at hlt
  refine ⟨hstake', not_not.mp hvin, fun i out hi hout => ?_, of_decide_eq_true hlt⟩
  obtain ⟨j, rfl⟩ : ∃ j, i = 1 + j := ⟨i - 1, by omega⟩
  exact hscripts j out (by rw [List.getElem?_drop]; exact hout)

end TransactionSignatureChecker

open Script TransactionSignatureChecker

/-- **Who can spend a delegated output.** If `VerifyScript` succeeds on an input with a
delegation, the script signature has left a public key and a signature that the checker
accepts, and the key is the owner's, or it is the staker's and the transaction is a cold stake;
provided that the values on the script add up within 64 bits. -/
theorem delegation_spent {t : TransactionSignatureChecker} {staker owner : CKeyID}
    {scriptSig : CScript} {flags : UInt32} {sigversion : SigVersion}
    (hlo : -2 ^ 63 ≤ valueOf (getScriptForStakeDelegation staker owner) t.txTo.vout)
    (hhi : valueOf (getScriptForStakeDelegation staker owner) t.txTo.vout < 2 ^ 63)
    (h : verifyScript t.env scriptSig (getScriptForStakeDelegation staker owner) flags
      t.toSignatureChecker sigversion = .ok ()) :
    ∃ pk flag sig rest,
      evalScript ⟨t.env, scriptSig, flags, t.toSignatureChecker, sigversion⟩ [] =
        .ok (pk :: flag :: sig :: rest) ∧
      t.checkSig sig pk (findAndDelete (CScript.pushData sig)
        (getScriptForStakeDelegation staker owner)) sigversion = some true ∧
      (t.env.hash160 pk = owner ∨
        (t.env.hash160 pk = staker ∧ t.IsColdStake (getScriptForStakeDelegation staker owner))) := by
  unfold verifyScript at h
  obtain ⟨-, h⟩ := guard_eq_ok.mp h
  obtain ⟨stack, hsig, h⟩ := bind_eq_ok.mp h
  obtain ⟨stack', hpub, h⟩ := bind_eq_ok.mp h
  obtain ⟨htop, -⟩ := guard_eq_ok.mp h
  obtain ⟨pk, flag, sig, rest, rfl, haccepted, hkey⟩ :=
    delegation_runs rfl hpub (by simpa using htop)
  refine ⟨pk, flag, sig, rest, hsig, haccepted, ?_⟩
  by_cases hflag : castToBool flag = true
  · rw [if_pos hflag] at hkey
    refine .inr ⟨hkey.1, isColdStake_of_checkColdStake ?_ hlo hhi hkey.2⟩
    simp [getScriptForStakeDelegation_eq]
  · rw [if_neg hflag] at hkey
    exact .inl hkey

namespace DelegationSample

/-- Hashes and signatures that can be run by hand: every signature is good. -/
def env : ScriptEnv where
  ripemd160 := fun _ => .zeros 20
  sha1 := fun _ => .zeros 20
  sha256 := fun _ => .zeros 32
  hash160 := .firstBytes 20
  hash256 := fun _ => .zeros 32
  checkLowS := fun _ => true
  pubKeyVerify := fun _ _ _ => true
  sighash := fun _ _ _ _ _ _ => BaseUint.zero

def stakerKey : Bytes := 2 :: List.replicate 32 1

/-- An output delegated to the key. -/
def delegation : CScript := getScriptForStakeDelegation (env.hash160 stakerKey) (.zeros 20)

/-- The staker's signature, with the flag for the staker. -/
def scriptSig : CScript :=
  CScript.pushData [1] ++ [OP_1] ++ CScript.pushData stakerKey

/-- A coinstake of an output of value 4 that puts values on the delegation. -/
def checker (values : List ℤ) : TransactionSignatureChecker where
  env := env
  txTo := .plain [⟨⟨BaseUint.ofNat 1, 0⟩, scriptSig, 0xffffffff⟩]
    (⟨0, []⟩ :: values.map fun v => ⟨v, delegation⟩)
  nIn := 0
  amount := 4

end DelegationSample

open DelegationSample in
/-- The staker's key spends in a cold stake. -/
theorem delegation_spent_by_staker :
    ∃ pk flag sig rest,
      evalScript ⟨env, scriptSig, 0, (checker [5]).toSignatureChecker, .base⟩ [] =
        .ok (pk :: flag :: sig :: rest) ∧
      (checker [5]).checkSig sig pk (findAndDelete (CScript.pushData sig) delegation) .base =
        some true ∧
      (env.hash160 pk = .zeros 20 ∨
        (env.hash160 pk = env.hash160 stakerKey ∧ (checker [5]).IsColdStake delegation)) :=
  delegation_spent (t := checker [5]) (by decide +kernel) (by decide +kernel) (by decide +kernel)

open DelegationSample in
/-- **A sum beyond 64 bits passes**: outputs of the least value twice and of 5 pass for a value
above 4. -/
theorem not_delegation_spent :
    ¬ ∀ (t : TransactionSignatureChecker) (staker owner : CKeyID) (scriptSig : CScript)
      (flags : UInt32) (sigversion : SigVersion),
      verifyScript t.env scriptSig (getScriptForStakeDelegation staker owner) flags
        t.toSignatureChecker sigversion = .ok () →
      ∃ pk flag sig rest,
        evalScript ⟨t.env, scriptSig, flags, t.toSignatureChecker, sigversion⟩ [] =
          .ok (pk :: flag :: sig :: rest) ∧
        t.checkSig sig pk (findAndDelete (CScript.pushData sig)
          (getScriptForStakeDelegation staker owner)) sigversion = some true ∧
        (t.env.hash160 pk = owner ∨
          (t.env.hash160 pk = staker ∧
            t.IsColdStake (getScriptForStakeDelegation staker owner))) := by
  intro hall
  let t := checker [-2 ^ 63, -2 ^ 63, 5]
  obtain ⟨pk, flag, sig, rest, heval, -, hkey⟩ := hall t (env.hash160 stakerKey) (.zeros 20)
    scriptSig 0 .base (by decide +kernel)
  have hstack : evalScript ⟨env, scriptSig, 0, t.toSignatureChecker, .base⟩ [] =
      .ok [stakerKey, [1], [1]] := by decide +kernel
  obtain ⟨rfl, -⟩ := List.cons.inj (ok.inj (heval.symm.trans hstack))
  rcases hkey with howner | ⟨-, hcold⟩
  · exact absurd howner (by decide)
  · exact absurd hcold.value (by decide +kernel)

end Passion
