import Passion.Common.Matching
import Passion.Script.Interpreter

/-!
# What `OP_CHECKMULTISIG` decides

The loop goes over the keys once and gives each the first signature that is left. It succeeds
exactly if the signatures can be assigned to keys in order at all, whatever the oracle: a
signature that verifies under the key at hand may as well be assigned to it.
-/

namespace Passion

open List

namespace Script

variable {c : EvalContext}

/-- A signature and a key that pass the checks of their encodings. -/
structure Encoded (c : EvalContext) (vchSig vchPubKey : Bytes) : Prop where
  sig : checkSignatureEncoding c.env vchSig c.flags = .ok ()
  key : checkPubKeyEncoding vchPubKey c.flags = .ok ()

/-- `CheckSig` does not throw. -/
def Answers (c : EvalContext) (scriptCode : CScript) (verifies : Bytes → Bytes → Bool) : Prop :=
  ∀ vchSig vchPubKey, c.checker.checkSig vchSig vchPubKey scriptCode c.sigversion =
    some (verifies vchSig vchPubKey)

variable {scriptCode : CScript} {verifies : Bytes → Bytes → Bool} {keys sigs : List Bytes}

theorem checkedSig_of_encoded {vchSig vchPubKey : Bytes} (h : Encoded c vchSig vchPubKey)
    (hv : Answers c scriptCode verifies) :
    checkedSig c vchSig vchPubKey scriptCode = .ok (verifies vchSig vchPubKey) := by
  simp [checkedSig, h.sig, h.key, hv vchSig vchPubKey, Except.bind]

/-- **The loop decides whether there is a matching.** -/
theorem multisigLoop_eq (hv : Answers c scriptCode verifies)
    (henc : ∀ vchSig ∈ sigs, ∀ vchPubKey ∈ keys, Encoded c vchSig vchPubKey) :
    ∃ fSuccess, multisigLoop c scriptCode keys sigs = .ok fSuccess ∧
      (fSuccess = true ↔ sigs.SublistForall₂ (fun s k => verifies s k = true) keys) := by
  induction keys generalizing sigs with
  | nil =>
    cases sigs with
    | nil => exact ⟨true, rfl, by simp [SublistForall₂.nil]⟩
    | cons vchSig sigs =>
      refine ⟨false, rfl, iff_of_false Bool.false_ne_true fun hm => ?_⟩
      have hle := hm.length_le
      simp at hle
  | cons vchPubKey keys ih =>
    cases sigs with
    | nil => exact ⟨true, rfl, by simp [SublistForall₂.nil]⟩
    | cons vchSig sigs =>
      rw [multisigLoop, checkedSig_of_encoded (henc vchSig (by simp) vchPubKey (by simp)) hv]
      -- With more signatures than keys left there is no matching of the rest.
      have hrest : ∀ left : List Bytes, (∀ s ∈ left, s ∈ vchSig :: sigs) → ∃ fSuccess,
          (if left.length > keys.length then .ok false else multisigLoop c scriptCode keys left) =
            (.ok fSuccess : Except ScriptError Bool) ∧
          (fSuccess = true ↔ left.SublistForall₂ (fun s k => verifies s k = true) keys) := by
        intro left hleft
        by_cases hmore : left.length > keys.length
        · rw [if_pos hmore]
          exact ⟨false, rfl, iff_of_false Bool.false_ne_true fun hm => absurd hm.length_le (by omega)⟩
        · rw [if_neg hmore]
          exact ih fun s hs k hk => henc s (hleft s hs) k (mem_cons_of_mem _ hk)
      cases hok : verifies vchSig vchPubKey with
      | true =>
        rw [sublistForall₂_cons_iff_of_rel (by exact hok)]
        exact hrest sigs fun s hs => mem_cons_of_mem _ hs
      | false =>
        rw [sublistForall₂_cons_iff_of_not_rel (by simp [hok])]
        exact hrest (vchSig :: sigs) fun s hs => hs

/-! ## The opcode -/

/-- A small number is read as it is. -/
theorem getint_of_le {n : ℕ} (h : n ≤ 20) : CScriptNum.getint n = n := by
  unfold CScriptNum.getint
  rw [if_neg (by omega), if_neg (by omega)]

/-- The arguments as they lie on the stack. -/
theorem multisigArgs_eq {s : EvalState} {n m : ℕ} {keysCount sigsCount dummy : Bytes}
    {rest : List Bytes}
    (hstack : s.stack = keysCount :: (keys ++ sigsCount :: (sigs ++ dummy :: rest)))
    (hkeys : c.num keysCount = .ok n) (hsigs : c.num sigsCount = .ok m) (hn : keys.length = n)
    (hm : sigs.length = m) (hmn : m ≤ n) (hmax : n ≤ 20) :
    multisigArgs c s = if s.nOpCount + n > 201 then .error .opCount
      else .ok ⟨s.nOpCount + n, keys, sigs, dummy :: rest⟩ := by
  have hneg : ¬ ((n : ℤ) < 0 ∨ (n : ℤ) > MAX_PUBKEYS_PER_MULTISIG) := by
    rw [MAX_PUBKEYS_PER_MULTISIG]
    omega
  have hcount : ¬ ((m : ℤ) < 0 ∨ (m : ℤ) > n) := by omega
  subst hn hm
  simp only [multisigArgs, hstack, hkeys, hsigs, Except.bind, getint_of_le hmax,
    getint_of_le (hmn.trans hmax), if_neg hneg, if_neg hcount, Int.toNat_natCast, drop_left,
    take_left, length_append, length_cons]
  rw [if_neg (by omega : ¬ sigs.length + (rest.length + 1) < sigs.length + 1)]

/-- **`OP_CHECKMULTISIG` decides order-preserving matching.** With the arguments on the stack it
fails only for the count of opcodes and for the extra argument; otherwise it leaves, in place of
the arguments, whether the signatures can be assigned to keys in increasing order. -/
theorem execOp_checkMultisig {s : EvalState} {fExec : Bool} {n m : ℕ}
    {keysCount sigsCount dummy : Bytes} {rest : List Bytes}
    (hstack : s.stack = keysCount :: (keys ++ sigsCount :: (sigs ++ dummy :: rest)))
    (hkeys : c.num keysCount = .ok n) (hsigs : c.num sigsCount = .ok m) (hn : keys.length = n)
    (hm : sigs.length = m) (hmn : m ≤ n) (hmax : n ≤ 20)
    (henc : ∀ vchSig ∈ sigs, ∀ vchPubKey ∈ keys, Encoded c vchSig vchPubKey)
    (hv : Answers c (multisigCode s sigs) verifies) :
    ∃ fSuccess, (fSuccess = true ↔ ∃ f : Fin sigs.length → Fin keys.length, StrictMono f ∧
        ∀ i, verifies (sigs.get i) (keys.get (f i)) = true) ∧
      execOp c Opcode.OP_CHECKMULTISIG fExec s =
        (if s.nOpCount + n > 201 then .error .opCount
        else if hasFlag c.flags SCRIPT_VERIFY_NULLDUMMY ∧ dummy ≠ [] then .error .sigNulldummy
        else .ok { s with stack := vchBool fSuccess :: rest, nOpCount := s.nOpCount + n }) ∧
      s.stack.length = m + n + 3 + rest.length := by
  obtain ⟨fSuccess, hloop, hmatch⟩ := multisigLoop_eq hv henc
  refine ⟨fSuccess, hmatch.trans sublistForall₂_iff_strictMono, ?_, ?_⟩
  · have hop : execOp c Opcode.OP_CHECKMULTISIG fExec s =
        (checkMultisigOp c Opcode.OP_CHECKMULTISIG s).map fun r =>
          { s with stack := r.1, nOpCount := r.2 } := rfl
    rw [hop, checkMultisigOp, multisigArgs_eq hstack hkeys hsigs hn hm hmn hmax]
    by_cases hops : s.nOpCount + n > 201
    · rw [if_pos hops, if_pos hops]
      rfl
    · rw [if_neg hops, if_neg hops]
      simp only [Except.bind, hloop]
      by_cases hdummy : hasFlag c.flags SCRIPT_VERIFY_NULLDUMMY = true ∧ dummy ≠ []
      · rw [if_pos hdummy, if_pos hdummy]
        rfl
      · rw [if_neg hdummy, if_neg hdummy]
        rfl
  · simp only [hstack, length_cons, length_append]
    omega

/-- A context in which a signature verifies under the keys with its first byte. -/
def firstByteContext : EvalContext where
  env := ⟨fun _ => .zeros 20, fun _ => .zeros 20, fun _ => .zeros 32, fun _ => .zeros 20,
    fun _ => .zeros 32, fun _ => true, fun _ _ _ => true, fun _ _ _ _ _ _ => BaseUint.zero⟩
  script := []
  flags := 0
  checker := ⟨fun sig key _ _ => some (sig.head? == key.head?), fun _ => some true, fun _ => true⟩
  sigversion := .base

/-- Two of three signatures, in the order of their keys. -/
theorem execOp_checkMultisig_two_of_three :
    execOp firstByteContext Opcode.OP_CHECKMULTISIG true
        ⟨[], [[3], [11], [22], [33], [2], [11], [33], [], [7]], [], [], 0, []⟩ =
      .ok ⟨[], [[1], [7]], [], [], 3, []⟩ := by
  have hstack : ([[3], [11], [22], [33], [2], [11], [33], [], [7]] : List Bytes) =
      [3] :: ([[11], [22], [33]] ++ [2] :: ([[11], [33]] ++ [] :: [[7]])) := rfl
  obtain ⟨fSuccess, hmatch, hrun, -⟩ := execOp_checkMultisig (c := firstByteContext)
    (s := ⟨[], _, [], [], 0, []⟩) hstack rfl rfl rfl rfl (by decide) (by decide)
    (fun _ _ _ _ => ⟨by simp [checkSignatureEncoding, firstByteContext, hasFlag, Except.bind], rfl⟩)
    (fun _ _ => rfl)
  have hyes : fSuccess = true := hmatch.mpr ⟨fun i => if i = 0 then 0 else 2, by decide, by decide⟩
  rw [hyes] at hrun
  exact hrun

/-! ## Signature operations

How often `CheckSig` is called while a script runs, and that `GetSigOpCount` bounds it. The
count guesses the number of keys of an `OP_CHECKMULTISIG` from the opcode before it: a small
number there is what lies on top of the stack when the opcode is executed, since both stand in
the same branch.
-/

open Except Opcode CScript UInt8 CScriptNum

variable (c : EvalContext)

/-! ## Calls of `CheckSig` -/

/-- The calls of `checkedSig`. -/
def checkedSigCalls (vchSig vchPubKey : Bytes) : ℕ :=
  if (checkSignatureEncoding c.env vchSig c.flags).isOk &&
    (checkPubKeyEncoding vchPubKey c.flags).isOk then 1 else 0

/-- The calls of `multisigLoop`. -/
def multisigLoopCalls (scriptCode : CScript) : List Bytes → List Bytes → ℕ
  | _, [] => 0
  | [], _ :: _ => 0
  | vchPubKey :: keys, vchSig :: sigs =>
    checkedSigCalls c vchSig vchPubKey +
      match checkedSig c vchSig vchPubKey scriptCode with
      | .error _ => 0
      | .ok fOk =>
        let sigs := if fOk then sigs else vchSig :: sigs
        if sigs.length > keys.length then 0 else multisigLoopCalls scriptCode keys sigs

/-- The calls of `execOp`. -/
def execOpCalls (opcode : UInt8) (s : EvalState) : ℕ :=
  if opcode = OP_CHECKSIG ∨ opcode = OP_CHECKSIGVERIFY then
    match s.stack with
    | vchPubKey :: vchSig :: _ => checkedSigCalls c vchSig vchPubKey
    | _ => 0
  else if opcode = OP_CHECKMULTISIG ∨ opcode = OP_CHECKMULTISIGVERIFY then
    match multisigArgs c s with
    | .error _ => 0
    | .ok a => multisigLoopCalls c (multisigCode s a.sigs) a.keys a.sigs
  else 0

/-- The calls of `step`: the opcodes that call `CheckSig` run only in a branch that is taken. -/
def stepCalls (s : EvalState) : ℕ :=
  match CScript.getOp s.pc with
  | none => 0
  | some (opcode, vchPushValue, pc) =>
    if vchPushValue.length > MAX_SCRIPT_ELEMENT_SIZE then 0
    else
      let nOpCount := if opcode > OP_16 then s.nOpCount + 1 else s.nOpCount
      if opcode > OP_16 ∧ nOpCount > 201 then 0
      else if isDisabled opcode then 0
      else if s.vfExec.contains false then 0
      else execOpCalls c opcode { s with pc := pc, nOpCount := nOpCount }

/-- The calls of `evalScript`. -/
def evalScriptCalls (stack : List Bytes) : ℕ :=
  if c.script.length > MAX_SCRIPT_SIZE then 0
  else Machine.cost (step c) EvalState.finished (stepCalls c) c.script.length (.start c.script stack)

/-- The calls of `verifyScript`. -/
def verifyScriptCalls (E : ScriptEnv) (scriptSig scriptPubKey : CScript) (flags : UInt32)
    (checker : SignatureChecker) (sigversion : SigVersion) : ℕ :=
  if hasFlag flags SCRIPT_VERIFY_SIGPUSHONLY && !CScript.isPushOnly scriptSig then 0
  else
    evalScriptCalls ⟨E, scriptSig, flags, checker, sigversion⟩ [] +
      match evalScript ⟨E, scriptSig, flags, checker, sigversion⟩ [] with
      | .error _ => 0
      | .ok stackCopy =>
        evalScriptCalls ⟨E, scriptPubKey, flags, checker, sigversion⟩ stackCopy +
          match evalScript ⟨E, scriptPubKey, flags, checker, sigversion⟩ stackCopy with
          | .error _ => 0
          | .ok stack =>
            if !topTrue stack then 0
            else if hasFlag flags SCRIPT_VERIFY_P2SH && CScript.isPayToScriptHash scriptPubKey then
              if !CScript.isPushOnly scriptSig then 0
              else match stackCopy with
                | [] => 0
                | pubKeySerialized :: stackCopy =>
                  evalScriptCalls ⟨E, pubKeySerialized, flags, checker, sigversion⟩ stackCopy
            else 0

variable {c} {s t : EvalState} {op last : UInt8}

/-! ## What the count adds for an opcode -/

/-- What `GetSigOpCount` adds for an opcode after another. -/
def sigOps (fAccurate : Bool) (last op : UInt8) : ℕ :=
  if op = OP_CHECKSIG ∨ op = OP_CHECKSIGVERIFY then 1
  else if op = OP_CHECKMULTISIG ∨ op = OP_CHECKMULTISIGVERIFY then
    if fAccurate ∧ OP_1 ≤ last ∧ last ≤ OP_16 then last.toNat - 0x50 else MAX_PUBKEYS_PER_MULTISIG
  else 0

variable {data : Bytes}

theorem sigOpLoop_read {f : Bool} {fuel n : ℕ} {pc pc' : CScript}
    (h : getOp pc = some (op, data, pc')) :
    sigOpLoop f (fuel + 1) pc last n =
      sigOpLoop f fuel pc' op (n + sigOps f last op) := by
  simp only [sigOpLoop, h, sigOps]
  split_ifs <;> rfl

theorem le_sigOpLoop (f : Bool) (fuel : ℕ) (pc : CScript) (last : UInt8) (n : ℕ) :
    n ≤ sigOpLoop f fuel pc last n := by
  induction fuel generalizing pc last n with
  | zero => exact le_rfl
  | succ fuel ih =>
    cases hop : getOp pc with
    | none => simp [sigOpLoop, hop]
    | some r =>
      rw [sigOpLoop_read hop]
      exact (Nat.le_add_right _ _).trans (ih _ _ _)

theorem small_sub_le (h : last ≤ OP_16) : last.toNat - 0x50 ≤ 16 := by
  have hle : last.toNat ≤ OP_16.toNat := le_iff_toNat_le.mp h
  have htop : OP_16.toNat = 0x60 := rfl
  omega

/-- **The accurate count is the smaller one.** -/
theorem sigOpLoop_accurate_le (fuel : ℕ) (pc : CScript) (last : UInt8) {n n' : ℕ} (h : n ≤ n') :
    sigOpLoop true fuel pc last n ≤ sigOpLoop false fuel pc last n' := by
  induction fuel generalizing pc last n n' with
  | zero => exact h
  | succ fuel ih =>
    cases hop : getOp pc with
    | none => simpa [sigOpLoop, hop] using h
    | some r =>
      rw [sigOpLoop_read hop, sigOpLoop_read hop]
      refine ih _ _ (Nat.add_le_add h ?_)
      unfold sigOps
      split_ifs with _ _ hsmall
      · exact le_rfl
      · rename_i hfalse
        cases hfalse.1
      · exact (small_sub_le hsmall.2.2).trans (by decide)
      · rename_i hfalse
        cases hfalse.1
      · exact le_rfl
      · exact le_rfl

/-! ## The calls of an opcode -/

theorem checkedSigCalls_le (vchSig vchPubKey : Bytes) : checkedSigCalls c vchSig vchPubKey ≤ 1 := by
  unfold checkedSigCalls
  split <;> omega

theorem multisigLoopCalls_le (scriptCode : CScript) (keys sigs : List Bytes) :
    multisigLoopCalls c scriptCode keys sigs ≤ keys.length := by
  induction keys generalizing sigs with
  | nil => cases sigs <;> exact le_rfl
  | cons vchPubKey keys ih =>
    cases sigs with
    | nil => exact Nat.zero_le _
    | cons vchSig sigs =>
      rw [multisigLoopCalls, Nat.add_comm]
      refine Nat.add_le_add ?_ (checkedSigCalls_le _ _)
      cases checkedSig c vchSig vchPubKey scriptCode with
      | error e => exact Nat.zero_le _
      | ok fOk =>
        exact (ite_le_sup _ _ _).trans (max_le (Nat.zero_le _) (ih _))

/-- The keys are at most as many as the top of the stack says, and at most 20. -/
theorem length_keys_of_multisigArgs {a : MultisigArgs} (h : multisigArgs c s = .ok a) :
    ∃ keysCount rest n, s.stack = keysCount :: rest ∧ c.num keysCount = .ok n ∧
      (a.keys.length : ℤ) ≤ getint n ∧ getint n ≤ 20 := by
  unfold multisigArgs at h
  cases hstack : s.stack with
  | nil =>
    rw [hstack] at h
    cases h
  | cons keysCount rest =>
    rw [hstack] at h
    obtain ⟨n, hn, h⟩ := bind_eq_ok.mp h
    obtain ⟨hrange, h⟩ := guard_eq_ok.mp h
    obtain ⟨-, h⟩ := guard_eq_ok.mp h
    rw [MAX_PUBKEYS_PER_MULTISIG] at hrange
    refine ⟨keysCount, rest, n, rfl, hn, ?_, by omega⟩
    split at h
    · cases h
    · obtain ⟨m, -, h⟩ := bind_eq_ok.mp h
      obtain ⟨-, h⟩ := guard_eq_ok.mp h
      obtain ⟨-, h⟩ := guard_eq_ok.mp h
      cases h
      have hlen := length_take_le (getint n).toNat rest
      dsimp only
      omega

/-- **After a small number**, in a branch that is taken, that number is on top of the stack. -/
def Follows (last : UInt8) (s : EvalState) : Prop :=
  OP_1 ≤ last → last ≤ OP_16 → s.vfExec.contains false = false →
    ∃ rest, s.stack = CScript.serializeNum ((last.toNat : ℤ) - 0x50) :: rest

/-- A small number is read back. -/
theorem num_small (h1 : OP_1 ≤ last) (h2 : last ≤ OP_16) :
    c.num (serializeNum ((last.toNat : ℤ) - 0x50)) = .ok ((last.toNat : ℤ) - 0x50) := by
  have hsmall : ∀ b : Bool, ∀ k : ℕ, k < 17 → ofVch (serializeNum k) b
      nDefaultMaxNumSize = some (k : ℤ) := by decide
  have hlo : 0x51 ≤ last.toNat := le_iff_toNat_le.mp h1
  have hhi : last.toNat ≤ 0x60 := le_iff_toNat_le.mp h2
  obtain ⟨k, hk⟩ : ∃ k : ℕ, (last.toNat : ℤ) - 0x50 = k := ⟨last.toNat - 0x50, by omega⟩
  rw [hk, EvalContext.num, hsmall _ k (by omega)]

/-- **An opcode calls `CheckSig` at most as often as it is counted.** -/
theorem execOpCalls_le (hlast : Follows last s) (hexec : s.vfExec.contains false = false) :
    execOpCalls c op s ≤ sigOps true last op := by
  unfold execOpCalls sigOps
  by_cases hsig : op = OP_CHECKSIG ∨ op = OP_CHECKSIGVERIFY
  · rw [if_pos hsig, if_pos hsig]
    split
    · exact checkedSigCalls_le _ _
    · exact Nat.zero_le _
  · rw [if_neg hsig, if_neg hsig]
    by_cases hmulti : op = OP_CHECKMULTISIG ∨ op = OP_CHECKMULTISIGVERIFY
    · rw [if_pos hmulti, if_pos hmulti]
      cases hargs : multisigArgs c s with
      | error e => exact Nat.zero_le _
      | ok a =>
        obtain ⟨keysCount, rest, n, hstack, hn, hle, hmax⟩ := length_keys_of_multisigArgs hargs
        refine (multisigLoopCalls_le _ _ _).trans ?_
        by_cases hsmall : true = true ∧ OP_1 ≤ last ∧ last ≤ OP_16
        · rw [if_pos hsmall]
          obtain ⟨rest', htop⟩ := hlast hsmall.2.1 hsmall.2.2 hexec
          obtain ⟨rfl, -⟩ := cons.inj (hstack.symm.trans htop)
          rw [num_small hsmall.2.1 hsmall.2.2] at hn
          cases hn
          have hget : getint (last.toNat - 0x50) ≤ last.toNat - 0x50 := by
            unfold getint
            split_ifs <;> omega
          omega
        · rw [if_neg hsmall, MAX_PUBKEYS_PER_MULTISIG]
          omega
    · rw [if_neg hmulti, if_neg hmulti]

/-! ## The calls of a run -/

variable {pc : CScript}

/-- An opcode that is executed leaves the position, and after a small number that number. -/
theorem follows_of_step (hop : getOp s.pc = some (op, data, pc)) (h : step c s = .ok t) :
    t.pc = pc ∧ Follows op t := by
  obtain ⟨n, hexec⟩ := step_read hop h
  refine ⟨execute_pc c op data _ t hexec, fun h1 h2 htaken => ?_⟩
  have hdata : ¬ op ≤ OP_PUSHDATA4 := UInt8.not_le.mpr (UInt8.lt_of_lt_of_le (by decide) h1)
  unfold execute at hexec
  dsimp only at hexec
  rw [decide_eq_false hdata, Bool.and_false, if_neg Bool.false_ne_true] at hexec
  split at hexec
  · rw [execOp, if_pos (.inr ⟨h1, h2⟩)] at hexec
    cases hexec
    exact ⟨_, rfl⟩
  · rename_i hnot
    cases hexec
    exact absurd (by rw [htaken]; rfl) hnot

theorem stepCalls_le (hop : getOp s.pc = some (op, data, pc)) (hlast : Follows last s) :
    stepCalls c s ≤ sigOps true last op := by
  unfold stepCalls
  rw [hop]
  refine (ite_le_sup _ _ _).trans (max_le (Nat.zero_le _) ?_)
  refine (ite_le_sup _ _ _).trans (max_le (Nat.zero_le _) ?_)
  refine (ite_le_sup _ _ _).trans (max_le (Nat.zero_le _) ?_)
  split
  · exact Nat.zero_le _
  · rename_i hexec
    exact execOpCalls_le (by exact hlast) (by simpa using hexec)

/-- **A run calls `CheckSig` at most as often as the script counts.** -/
theorem cost_stepCalls_le (fuel n : ℕ) (hlast : Follows last s) :
    n + Machine.cost (step c) EvalState.finished (stepCalls c) fuel s ≤
      sigOpLoop true fuel s.pc last n := by
  induction fuel generalizing s last n with
  | zero => exact le_rfl
  | succ fuel ih =>
    rw [Machine.cost]
    split
    · exact le_sigOpLoop _ _ _ _ _
    · cases hop : getOp s.pc with
      | none =>
        have hstep : step c s = .error .badOpcode := by rw [step, hop]
        have hcalls : stepCalls c s = 0 := by rw [stepCalls, hop]
        rw [hstep, hcalls]
        exact le_sigOpLoop _ _ _ _ _
      | some r =>
        obtain ⟨op, data, pc⟩ := r
        rw [sigOpLoop_read hop]
        have hle := stepCalls_le (c := c) hop hlast
        cases hstep : step c s with
        | error e =>
          have hmore := le_sigOpLoop true fuel pc op (n + sigOps true last op)
          dsimp only
          omega
        | ok t =>
          obtain ⟨hpc, hnext⟩ := follows_of_step hop hstep
          have hmore := ih (n + sigOps true last op) hnext
          rw [hpc] at hmore
          dsimp only
          omega

theorem evalScriptCalls_le (c : EvalContext) (stack : List Bytes) :
    evalScriptCalls c stack ≤ getSigOpCount c.script true := by
  unfold evalScriptCalls
  split
  · exact Nat.zero_le _
  · have hfirst : Follows OP_INVALIDOPCODE (.start c.script stack) := fun _ h =>
      absurd h (by decide)
    have hle := cost_stepCalls_le (c := c) c.script.length 0 hfirst
    rwa [Nat.zero_add] at hle

/-! ## Scripts taken from the last push -/

/-- The top of the stack counts no more than the data last pushed. -/
def Carries (data : Bytes) (stack : List Bytes) : Prop :=
  ∀ top rest, stack = top :: rest → CScript.getSigOpCount top true ≤ CScript.getSigOpCount data true

/-- A number pushed by an opcode, read as a script, has no signature operations. -/
theorem getSigOpCount_small (h1 : OP_1NEGATE ≤ op) (h2 : op ≤ OP_16) (hne : op ≠ 0x50) :
    getSigOpCount (serializeNum ((op.toNat : ℤ) - 0x50)) true = 0 := by
  have hall : ∀ k : ℕ, k < 18 → k ≠ 1 → getSigOpCount (serializeNum (k - 1)) true = 0 := by decide
  have hlo : 0x4f ≤ op.toNat := le_iff_toNat_le.mp h1
  have hhi : op.toNat ≤ 0x60 := le_iff_toNat_le.mp h2
  have hval : op.toNat ≠ 0x50 := fun heq => hne (UInt8.toNat_inj.mp heq)
  have hcast : op.toNat - 0x50 = ((op.toNat - 0x4f : ℕ) : ℤ) - 1 := by omega
  rw [hcast]
  exact hall _ (by omega) (by omega)

/-- A turn of a script that only pushes. -/
theorem carries_of_step (hop : getOp s.pc = some (op, data, pc)) (hpush : op ≤ OP_16)
    (hexec : s.vfExec = []) (h : step c s = .ok t) :
    t.pc = pc ∧ t.vfExec = [] ∧ Carries data t.stack := by
  obtain ⟨n, hrun⟩ := step_read hop h
  unfold execute at hrun
  simp only [hexec, contains_nil, Bool.not_false, Bool.true_and] at hrun
  by_cases hdata : op ≤ OP_PUSHDATA4
  · rw [if_pos (decide_eq_true hdata)] at hrun
    obtain ⟨-, hrun⟩ := guard_eq_ok.mp hrun
    cases hrun
    exact ⟨rfl, rfl, fun top rest heq => by rw [(cons.inj heq).1]⟩
  · rw [if_neg (by simpa using hdata)] at hrun
    have hlo : 0x4f ≤ op.toNat := UInt8.lt_iff_toNat_lt.mp (UInt8.not_le.mp hdata)
    by_cases hres : op = 0x50
    · subst hres
      cases hrun
    · have hnum : op = OP_1NEGATE ∨ (OP_1 ≤ op ∧ op ≤ OP_16) := by
        have hval : op.toNat ≠ 0x50 := fun heq => hres (UInt8.toNat_inj.mp heq)
        rcases Nat.lt_or_ge 0x4f op.toNat with hgt | hle
        · have hone : 0x51 ≤ op.toNat := by omega
          exact .inr ⟨le_iff_toNat_le.mpr hone, hpush⟩
        · have heq : op.toNat = 0x4f := by omega
          exact .inl (UInt8.toNat_inj.mp heq)
      rw [execOp, if_pos hnum] at hrun
      cases hrun
      refine ⟨rfl, rfl, fun top rest heq => ?_⟩
      obtain ⟨rfl, -⟩ := cons.inj heq
      rw [getSigOpCount_small (le_iff_toNat_le.mpr hlo) hpush hres]
      exact Nat.zero_le _

/-- **A script that only pushes** leaves on top what `GetSigOpCount` takes for the script. -/
theorem lastPushLoop_of_run {fuel : ℕ} (hpush : isPushOnlyLoop fuel s.pc = true)
    (hexec : s.vfExec = []) (hdata : Carries data s.stack) (h : evalLoop c fuel s = .ok t) :
    ∃ d, lastPushLoop fuel s.pc data = some d ∧ Carries d t.stack := by
  induction fuel generalizing s data with
  | zero =>
    have hdone : s.finished = true := hpush
    rw [evalLoop, Machine.run_of_done hdone] at h
    cases h
    exact ⟨data, rfl, hdata⟩
  | succ fuel ih =>
    cases hdone : s.finished with
    | true =>
      rw [evalLoop, Machine.run_of_done hdone] at h
      cases h
      exact ⟨data, by rw [lastPushLoop]; exact if_pos hdone, hdata⟩
    | false =>
      rw [evalLoop, Machine.run_succ_of_not_done hdone] at h
      obtain ⟨s', hstep, h⟩ := bind_eq_ok.mp h
      have hne : s.pc.isEmpty = false := hdone
      rw [isPushOnlyLoop, hne, if_neg Bool.false_ne_true] at hpush
      rw [lastPushLoop, hne]
      cases hop : getOp s.pc with
      | none =>
        rw [hop] at hpush
        cases hpush
      | some r =>
        obtain ⟨op, d, pc⟩ := r
        rw [hop] at hpush
        dsimp only at hpush ⊢
        split at hpush
        · cases hpush
        · rename_i hsmall
          rw [if_neg hsmall]
          obtain ⟨rfl, hexec', hd⟩ := carries_of_step hop (UInt8.not_lt.mp hsmall) hexec hstep
          exact ih hpush hexec' hd h

/-- A script that pays to a script hash counts nothing itself. -/
theorem getSigOpCount_scriptHash {script : CScript} (h : isPayToScriptHash script = true) :
    getSigOpCount script true = 0 := by
  simp only [isPayToScriptHash, Bool.and_eq_true, beq_iff_eq, and_assoc] at h
  obtain ⟨hlen, h0, h1, h22⟩ := h
  match script, hlen with
  | a :: b :: rest, hlen =>
    simp only [length_cons] at hlen
    cases h0
    cases h1
    have hlast : rest.drop 20 = [OP_EQUAL] := by
      rw [drop_eq_getElem_cons (by omega), drop_eq_nil_of_le (by omega)]
      simp only [getElem?_cons_succ] at h22
      rw [(List.getElem?_eq_some_iff.mp h22).2]
    have hsplit : rest = rest.take 20 ++ [OP_EQUAL] := by rw [← hlast, take_append_drop]
    have hpush : getOp (0x14 :: rest) = some (0x14, rest.take 20, [OP_EQUAL]) := by
      conv_lhs => rw [hsplit]
      exact getOp_direct (by decide) (by simp; omega) _
    rw [getSigOpCount, length_cons, length_cons, show rest.length = 20 + 1 by omega,
      sigOpLoop_read (getOp_cons (by decide) _), sigOpLoop_read hpush]
    rfl

/-- **Counting signature operations bounds the work.** With scripts that pay to a script hash
enabled, `VerifyScript` calls `CheckSig` at most as often as the two counts say, and counting
without the guess for `OP_CHECKMULTISIG` only counts more. -/
theorem verifyScriptCalls_le {flags : UInt32} (hp2sh : hasFlag flags SCRIPT_VERIFY_P2SH = true)
    (E : ScriptEnv) (scriptSig scriptPubKey : CScript) (checker : SignatureChecker)
    (sigversion : SigVersion) :
    verifyScriptCalls E scriptSig scriptPubKey flags checker sigversion ≤
        CScript.getSigOpCount scriptSig true + CScript.getSigOpCountP2SH scriptPubKey scriptSig ∧
      ∀ script, CScript.getSigOpCount script true ≤ CScript.getSigOpCount script false := by
  refine ⟨?_, fun script => sigOpLoop_accurate_le _ _ _ le_rfl⟩
  refine (ite_le_sup _ _ _).trans (max_le (Nat.zero_le _) ?_)
  refine Nat.add_le_add (evalScriptCalls_le _ _) ?_
  cases hsig : evalScript ⟨E, scriptSig, flags, checker, sigversion⟩ [] with
  | error e => exact Nat.zero_le _
  | ok stackCopy =>
    have hpub := evalScriptCalls_le ⟨E, scriptPubKey, flags, checker, sigversion⟩ stackCopy
    dsimp only at hpub ⊢
    rw [hp2sh, getSigOpCountP2SH]
    cases hhash : isPayToScriptHash scriptPubKey with
    | false =>
      refine (Nat.add_le_add hpub (le_of_eq ?_)).trans (le_of_eq (Nat.add_zero _))
      cases evalScript ⟨E, scriptPubKey, flags, checker, sigversion⟩ stackCopy with
      | error e => rfl
      | ok stack => exact ite_self _
    | true =>
      rw [getSigOpCount_scriptHash hhash, Nat.le_zero] at hpub
      rw [hpub, Nat.zero_add]
      cases evalScript ⟨E, scriptPubKey, flags, checker, sigversion⟩ stackCopy with
      | error e => exact Nat.zero_le _
      | ok stack =>
        refine (ite_le_sup _ _ _).trans (max_le (Nat.zero_le _) ?_)
        cases hpush : isPushOnly scriptSig with
        | false => exact Nat.zero_le _
        | true =>
          -- The redeem script is the last push.
          obtain ⟨-, t, hrun, -, rfl⟩ := evalScript_eq_ok.mp hsig
          have hloop : isPushOnlyLoop scriptSig.length scriptSig = true := hpush
          have hnone : Carries [] [] := fun _ _ h => by cases h
          obtain ⟨d, hd, hcarry⟩ := lastPushLoop_of_run hloop rfl hnone hrun
          rw [show lastPushLoop scriptSig.length scriptSig [] = some d from hd]
          cases htop : t.stack with
          | nil => exact Nat.zero_le _
          | cons pubKeySerialized rest =>
            exact (evalScriptCalls_le _ _).trans (hcarry _ _ htop)

/-- One of two signatures: one call, where the count says two. -/
theorem verifyScriptCalls_le_one_of_two :
    verifyScriptCalls firstByteContext.env [OP_0, 1, 22] [OP_1, 1, 11, 1, 22, OP_1 + 1, OP_CHECKMULTISIG]
        SCRIPT_VERIFY_P2SH firstByteContext.checker .base = 1 ∧
      verifyScriptCalls firstByteContext.env [OP_0, 1, 22]
        [OP_1, 1, 11, 1, 22, OP_1 + 1, OP_CHECKMULTISIG] SCRIPT_VERIFY_P2SH firstByteContext.checker
        .base ≤ 2 :=
  ⟨by decide +kernel, (verifyScriptCalls_le (by decide) _ _ _ _ _).1⟩

end Script

end Passion
