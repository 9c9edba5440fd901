import Passion.Primitives.Transaction

/-!
# Standard scripts

The builders and recognisers of `standard.cpp`. `Solver` tries the templates in a fixed order
and returns the type with the keys or hashes of the script.
-/

namespace Passion

open Opcode

/-- `txnouttype`, without the type of the scripts that match no template. -/
inductive Txnouttype
  | pubkey
  | pubkeyhash
  | scripthash
  | multisig
  | nullData
  | coldstake
  deriving DecidableEq

namespace Script

/-! ## Builders -/

/-- `GetScriptForStakeDelegation`. -/
def getScriptForStakeDelegation (stakingKey spendingKey : CKeyID) : CScript :=
  [OP_DUP, OP_HASH160, OP_ROT, OP_IF, OP_CHECKCOLDSTAKEVERIFY] ++ CScript.pushData stakingKey.val ++
    [OP_ELSE] ++ CScript.pushData spendingKey.val ++ [OP_ENDIF, OP_EQUALVERIFY, OP_CHECKSIG]

/-! ## Recognisers -/

/-- `MatchPayToPubkey`. -/
def matchPayToPubkey (script : CScript) : Option Bytes :=
  if (script.length == 67 && script[0]? == some 65 || script.length == 35 && script[0]? == some 33)
      && script.getLast? == some OP_CHECKSIG && pubKeyValidSize (script.drop 1).dropLast then
    some (script.drop 1).dropLast
  else none

/-- `MatchPayToPubkeyHash`. -/
def matchPayToPubkeyHash (script : CScript) : Option Bytes :=
  if CScript.isPayToPublicKeyHash script then some ((script.drop 3).take 20) else none

/-- `MatchPayToColdStaking`. -/
def matchPayToColdStaking (script : CScript) : Option (Bytes × Bytes) :=
  if CScript.isPayToColdStaking script then
    some ((script.drop 6).take 20, (script.drop 28).take 20)
  else none

/-- `IsSmallInteger`. -/
def isSmallInteger (opcode : UInt8) : Bool := decide (OP_1 ≤ opcode ∧ opcode ≤ OP_16)

/-- `DecodeOP_N` of a small integer. -/
def decodeOP_N (opcode : UInt8) : ℕ := opcode.toNat - 0x50

/-- The loop of `MatchMultisig` over the keys: the keys, the opcode after them and the rest of
the script from there. -/
def multisigKeys : ℕ → CScript → List Bytes × UInt8 × CScript
  | 0, it => ([], OP_INVALIDOPCODE, it)
  | fuel + 1, it =>
    match CScript.getOp it with
    | none => ([], OP_INVALIDOPCODE, it)
    | some (opcode, data, it) =>
      if pubKeyValidSize data then
        let (pubkeys, last, rest) := multisigKeys fuel it
        (data :: pubkeys, last, rest)
      else ([], opcode, it)

/-- `MatchMultisig`: how many signatures are required, and the keys. -/
def matchMultisig (script : CScript) : Option (ℕ × List Bytes) :=
  if script.getLast? ≠ some OP_CHECKMULTISIG then none
  else match CScript.getOp script with
    | none => none
    | some (opcode, _, it) =>
      if !isSmallInteger opcode then none
      else
        let required := decodeOP_N opcode
        let (pubkeys, last, rest) := multisigKeys it.length it
        if !isSmallInteger last then none
        else if pubkeys.length ≠ decodeOP_N last ∨ decodeOP_N last < required then none
        else if rest.length = 1 then some (required, pubkeys)
        else none

/-- `Solver`: the type and the solutions, or nothing where it returns `false`. -/
def solver (scriptPubKey : CScript) : Option (Txnouttype × List Bytes) :=
  if scriptPubKey.isEmpty then none
  else if CScript.isPayToScriptHash scriptPubKey then
    some (.scripthash, [(scriptPubKey.drop 2).take 20])
  else if scriptPubKey[0]? = some OP_RETURN ∧ CScript.isPushOnly (scriptPubKey.drop 1) then
    some (.nullData, [])
  else match matchPayToPubkey scriptPubKey with
    | some data => some (.pubkey, [data])
    | none =>
      match matchPayToPubkeyHash scriptPubKey with
      | some data => some (.pubkeyhash, [data])
      | none =>
        match matchPayToColdStaking scriptPubKey with
        | some (data, data1) => some (.coldstake, [data, data1])
        | none =>
          match matchMultisig scriptPubKey with
          | some (required, keys) =>
            some (.multisig, [UInt8.ofNat required] :: (keys ++ [[UInt8.ofNat keys.length]]))
          | none => none

/-! ## The cold-staking template

`IsPayToColdStaking` tests the length and six bytes of a script. Five bytes of the template it
does not look at: with others in their place a script passes that is not a delegation.
-/

open CScript List

/-- The script has the length and the bytes that `IsPayToColdStaking` tests. -/
def TestedBytes (s : CScript) : Prop :=
  s.length = 51 ∧ s[2]? = some OP_ROT ∧ s[4]? = some OP_CHECKCOLDSTAKEVERIFY ∧
    s[5]? = some 0x14 ∧ s[27]? = some 0x14 ∧ s[49]? = some OP_EQUALVERIFY ∧
    s[50]? = some OP_CHECKSIG

/-- The bytes of the template that `IsPayToColdStaking` does not test are those of a
delegation. -/
def UntestedBytes (s : CScript) : Prop :=
  s[0]? = some OP_DUP ∧ s[1]? = some OP_HASH160 ∧ s[3]? = some OP_IF ∧ s[26]? = some OP_ELSE ∧
    s[48]? = some OP_ENDIF

/-- A delegation, byte by byte. -/
theorem getScriptForStakeDelegation_eq (k1 k2 : CKeyID) :
    getScriptForStakeDelegation k1 k2 =
      [OP_DUP, OP_HASH160, OP_ROT, OP_IF, OP_CHECKCOLDSTAKEVERIFY, 0x14] ++ (k1.val ++
        ([OP_ELSE, 0x14] ++ (k2.val ++ [OP_ENDIF, OP_EQUALVERIFY, OP_CHECKSIG]))) := by
  have hpush : ∀ k : CKeyID, pushData k.val = 0x14 :: k.val := by
    intro k
    simp [pushData, k.property, OP_PUSHDATA1]
  simp [getScriptForStakeDelegation, hpush]

variable {s : CScript}

theorem exists_append_of_le {n : ℕ} (h : n ≤ s.length) : ∃ a b, s = a ++ b ∧ a.length = n :=
  ⟨s.take n, s.drop n, (take_append_drop n s).symm, length_take_of_le h⟩

/-- A script of 51 bytes, cut where a delegation has its keys. -/
theorem exists_cut (h : s.length = 51) :
    ∃ (a0 a1 a2 a3 a4 a5 b0 b1 c0 c1 c2 : UInt8) (k1 k2 : CKeyID),
      s = [a0, a1, a2, a3, a4, a5] ++ (k1.val ++ ([b0, b1] ++ (k2.val ++ [c0, c1, c2]))) := by
  obtain ⟨a0, a1, a2, a3, a4, a5, s1, rfl⟩ :
      ∃ a0 a1 a2 a3 a4 a5 s1, s = a0 :: a1 :: a2 :: a3 :: a4 :: a5 :: s1 := by
    match s, h with
    | a0 :: a1 :: a2 :: a3 :: a4 :: a5 :: s1, _ => exact ⟨a0, a1, a2, a3, a4, a5, s1, rfl⟩
  have hs1 : s1.length = 45 := by simpa using h
  obtain ⟨k1, r1, rfl, hk1⟩ := exists_append_of_le (by omega : 20 ≤ s1.length)
  have hr1 : r1.length = 25 := by
    rw [length_append] at hs1
    omega
  obtain ⟨b0, b1, s2, rfl⟩ : ∃ b0 b1 s2, r1 = b0 :: b1 :: s2 := by
    match r1, hr1 with
    | b0 :: b1 :: s2, _ => exact ⟨b0, b1, s2, rfl⟩
  have hs2 : s2.length = 23 := by simpa using hr1
  obtain ⟨k2, r2, rfl, hk2⟩ := exists_append_of_le (by omega : 20 ≤ s2.length)
  have hr2 : r2.length = 3 := by
    rw [length_append] at hs2
    omega
  obtain ⟨c0, c1, c2, rfl⟩ := length_eq_three.mp hr2
  exact ⟨a0, a1, a2, a3, a4, a5, b0, b1, c0, c1, c2, ⟨k1, hk1⟩, ⟨k2, hk2⟩, by simp⟩

theorem isPayToColdStaking_cut (a0 a1 a2 a3 a4 a5 b0 b1 c0 c1 c2 : UInt8) (k1 k2 : CKeyID) :
    isPayToColdStaking
        ([a0, a1, a2, a3, a4, a5] ++ (k1.val ++ ([b0, b1] ++ (k2.val ++ [c0, c1, c2])))) = true ↔
      a2 = OP_ROT ∧ a4 = OP_CHECKCOLDSTAKEVERIFY ∧ a5 = 0x14 ∧ b1 = 0x14 ∧ c1 = OP_EQUALVERIFY ∧
        c2 = OP_CHECKSIG := by
  simp [isPayToColdStaking, k1.property, k2.property, and_assoc]

theorem untestedBytes_cut (a0 a1 a2 a3 a4 a5 b0 b1 c0 c1 c2 : UInt8) (k1 k2 : CKeyID) :
    UntestedBytes
        ([a0, a1, a2, a3, a4, a5] ++ (k1.val ++ ([b0, b1] ++ (k2.val ++ [c0, c1, c2])))) ↔
      a0 = OP_DUP ∧ a1 = OP_HASH160 ∧ a3 = OP_IF ∧ b0 = OP_ELSE ∧ c0 = OP_ENDIF := by
  simp [UntestedBytes, k1.property, k2.property]

theorem isPayToColdStaking_iff : isPayToColdStaking s = true ↔ TestedBytes s := by
  simp only [isPayToColdStaking, TestedBytes, Bool.and_eq_true, beq_iff_eq, and_assoc]

/-- **A delegation is what passes the test with the untested bytes of the template.** -/
theorem isDelegation_iff :
    (∃ k1 k2, s = getScriptForStakeDelegation k1 k2) ↔
      isPayToColdStaking s = true ∧ UntestedBytes s := by
  constructor
  · rintro ⟨k1, k2, rfl⟩
    rw [getScriptForStakeDelegation_eq, isPayToColdStaking_cut, untestedBytes_cut]
    exact ⟨⟨rfl, rfl, rfl, rfl, rfl, rfl⟩, rfl, rfl, rfl, rfl, rfl⟩
  · rintro ⟨htest, huntested⟩
    have hlen : s.length = 51 := (isPayToColdStaking_iff.mp htest).1
    obtain ⟨a0, a1, a2, a3, a4, a5, b0, b1, c0, c1, c2, k1, k2, rfl⟩ := exists_cut hlen
    obtain ⟨rfl, rfl, rfl, rfl, rfl, rfl⟩ :=
      (isPayToColdStaking_cut a0 a1 a2 a3 a4 a5 b0 b1 c0 c1 c2 k1 k2).mp htest
    obtain ⟨rfl, rfl, rfl, rfl, rfl⟩ := (untestedBytes_cut _ _ _ _ _ _ _ _ _ _ _ k1 k2).mp huntested
    exact ⟨k1, k2, (getScriptForStakeDelegation_eq k1 k2).symm⟩

/-- What `Solver` finds in a script that passes the test: the two hashes, unless the script is
data behind an `OP_RETURN`. -/
theorem solver_of_isPayToColdStaking (h : isPayToColdStaking s = true) :
    solver s = if s[0]? = some OP_RETURN ∧ isPushOnly (s.drop 1) = true then
        some (.nullData, [])
      else some (.coldstake, [(s.drop 6).take 20, (s.drop 28).take 20]) := by
  have hlen : s.length = 51 := (isPayToColdStaking_iff.mp h).1
  have hne : s ≠ [] := by
    rintro rfl
    cases hlen
  simp [solver, matchPayToPubkey, matchPayToPubkeyHash, matchPayToColdStaking,
    isPayToScriptHash, isPayToPublicKeyHash, hlen, hne, h]

/-- `Solver` finds the keys of a delegation. -/
theorem solver_getScriptForStakeDelegation (k1 k2 : CKeyID) :
    solver (getScriptForStakeDelegation k1 k2) = some (.coldstake, [k1.val, k2.val]) := by
  have hdelegation := isDelegation_iff.mp ⟨k1, k2, rfl⟩
  have hnot : some OP_DUP ≠ some OP_RETURN := by decide
  rw [solver_of_isPayToColdStaking hdelegation.1, if_neg fun h => hnot h.1,
    getScriptForStakeDelegation_eq]
  simp [drop_append, drop_eq_nil_of_le, k1.property, k2.property]

end Script

open Script

/-- **When the template is recognised.** A script passes `IsPayToColdStaking` exactly if it is a
delegation, whose keys `Solver` then finds, exactly if it does not have the bytes that are tested
with other bytes at the other positions. -/
theorem isPayToColdStaking_exact_iff (s : CScript) :
    ((CScript.isPayToColdStaking s = true ↔ ∃ k1 k2, s = getScriptForStakeDelegation k1 k2) ∧
        ∀ k1 k2, s = getScriptForStakeDelegation k1 k2 →
          solver s = some (.coldstake, [k1.val, k2.val])) ↔
      (TestedBytes s → UntestedBytes s) := by
  rw [← isPayToColdStaking_iff]
  constructor
  · rintro ⟨hexact, -⟩ htest
    exact (isDelegation_iff.mp (hexact.mp htest)).2
  · intro huntested
    refine ⟨⟨fun htest => isDelegation_iff.mpr ⟨htest, huntested htest⟩, fun hdelegation =>
      (isDelegation_iff.mp hdelegation).1⟩, ?_⟩
    rintro k1 k2 rfl
    exact solver_getScriptForStakeDelegation k1 k2

/-- **A script that is no delegation passes the test**: one whose first opcode returns. -/
theorem not_isPayToColdStaking_exact :
    ¬ ∀ s : CScript, (CScript.isPayToColdStaking s = true ↔
      ∃ k1 k2, s = getScriptForStakeDelegation k1 k2) := by
  intro hall
  let s : CScript := OP_RETURN :: (getScriptForStakeDelegation (.zeros 20) (.zeros 20)).drop 1
  have hdelegation := (hall s).mp (by decide)
  exact absurd (isDelegation_iff.mp hdelegation).2 (by unfold UntestedBytes; decide)

end Passion
