import Passion.Common.Runs
import Passion.Common.Tables
import Passion.Wallet.KeyPool

/-!
# The classes of the key pool

The four sets of indices share no index, and the records of the external, the internal and the
staking set are of the type of their set. A key is reserved from the set of the pre-split keys as
long as there are any, whatever type was asked for; but `ReturnDestination` puts it into the set of
that type.
-/

namespace Passion

open AList Persistent List

/-- The type of the records of a set. The pre-split keys come from the external set. -/
def KeyPoolSet.type : KeyPoolSet → UInt8
  | .external => EXTERNAL
  | .internal => INTERNAL
  | .staking => STAKING
  | .preSplit => EXTERNAL

namespace ScriptPubKeyMan

/-- **The sets are in order**: no index is in two of them, each index has a record of the type
of its set and is not above `m_max_keypool_index`, and only external keys are marked as
pre-split. -/
structure InOrder (s : ScriptPubKeyMan) : Prop where
  disjoint : ∀ a b i, i ∈ s.setKeyPool a → i ∈ s.setKeyPool b → a = b
  record : ∀ a i, i ∈ s.setKeyPool a → ∃ kp, s.db.lookup i = some kp ∧ kp.type = a.type
  bounded : ∀ a i, i ∈ s.setKeyPool a → i ≤ s.m_max_keypool_index
  marked : ∀ i kp, s.db.lookup i = some kp → kp.m_pre_split = true → kp.type = EXTERNAL

variable {E : KeyPoolEnv} {s t : ScriptPubKeyMan} {a b : KeyPoolSet} {i j : ℤ} {kp : CKeyPool}
variable {type asked : UInt8} {k : CKeyID} {handles handles' : ℤ → Option UInt8}

theorem mem_insert_iff : j ∈ (s.insert a i).setKeyPool b ↔ b = a ∧ j = i ∨ j ∈ s.setKeyPool b := by
  by_cases hab : b = a
  · subst hab
    simp
  · simp [hab]

theorem mem_erase_iff : j ∈ (s.erase a i).setKeyPool b ↔ (b = a → j ≠ i) ∧ j ∈ s.setKeyPool b := by
  by_cases hab : b = a
  · subst hab
    simp
  · simp [hab]

/-! ## A change at one index -/

/-- **The pool has changed at one index**: everything else about the sets, the records and the
reservations is as before. -/
structure ChangedAt (i : ℤ) (s t : ScriptPubKeyMan) : Prop where
  hdChain : t.hdChain = s.hdChain
  wallet : t.wallet = s.wallet
  max : s.m_max_keypool_index ≤ t.m_max_keypool_index
  mem : ∀ j, j ≠ i → ∀ a, j ∈ t.setKeyPool a ↔ j ∈ s.setKeyPool a
  lookup : ∀ j, j ≠ i → t.db.lookup j = s.db.lookup j
  reserved : ∀ j, j ≠ i → t.m_index_to_reserved_key j = s.m_index_to_reserved_key j

/-- **The sets are in order at an index.** -/
structure InOrderAt (s : ScriptPubKeyMan) (i : ℤ) : Prop where
  disjoint : ∀ a b, i ∈ s.setKeyPool a → i ∈ s.setKeyPool b → a = b
  record : ∀ a, i ∈ s.setKeyPool a → ∃ kp, s.db.lookup i = some kp ∧ kp.type = a.type
  bounded : ∀ a, i ∈ s.setKeyPool a → i ≤ s.m_max_keypool_index
  marked : ∀ kp, s.db.lookup i = some kp → kp.m_pre_split = true → kp.type = EXTERNAL

/-- **An index that is out of the pool**: it is reserved and in no set, and its record is of the
type that was asked for or an external one. -/
structure Held (s : ScriptPubKeyMan) (i : ℤ) (asked : UInt8) : Prop where
  notMem : ∀ a, i ∉ s.setKeyPool a
  bounded : i ≤ s.m_max_keypool_index
  reserved : (s.m_index_to_reserved_key i).isSome = true
  record : ∃ kp, s.db.lookup i = some kp ∧
    (kp.type = EXTERNAL ∨ kp.type = asked ∧ (asked = INTERNAL ∨ asked = STAKING))

/-- **What the calls keep**: an HD wallet whose sets are in order, with some indices out of the
pool for the types they were asked for. -/
structure Kept (handles : ℤ → Option UInt8) (s : ScriptPubKeyMan) : Prop where
  hd : s.isHDEnabled = true
  inOrder : s.InOrder
  held : ∀ i asked, handles i = some asked → s.Held i asked

/-- An index that is in no set. -/
theorem InOrderAt.of_notMem (hnot : ∀ a, i ∉ s.setKeyPool a)
    (hmark : ∀ kp, s.db.lookup i = some kp → kp.m_pre_split = true → kp.type = EXTERNAL) :
    s.InOrderAt i :=
  ⟨fun a _ ha => absurd ha (hnot a), fun a ha => absurd ha (hnot a),
    fun a ha => absurd ha (hnot a), hmark⟩

/-- An index that is in one set. -/
theorem InOrderAt.of_mem (hmem : ∀ b, i ∈ s.setKeyPool b → b = a)
    (hrec : s.db.lookup i = some kp) (htype : kp.type = a.type) (hle : i ≤ s.m_max_keypool_index)
    (hmark : kp.m_pre_split = true → kp.type = EXTERNAL) : s.InOrderAt i where
  disjoint b c hb hc := (hmem b hb).trans (hmem c hc).symm
  record b hb := ⟨kp, hrec, hmem b hb ▸ htype⟩
  bounded _ _ := hle
  marked kp' hrec' := by
    obtain rfl : kp = kp' := Option.some.inj (hrec.symm.trans hrec')
    exact hmark

theorem InOrder.change (h : s.InOrder) (hst : ChangedAt i s t) (hi : t.InOrderAt i) :
    t.InOrder where
  disjoint a b j := by
    by_cases hj : j = i
    · exact hj ▸ hi.disjoint a b
    · simpa only [hst.mem j hj] using h.disjoint a b j
  record a j := by
    by_cases hj : j = i
    · exact hj ▸ hi.record a
    · simpa only [hst.mem j hj, hst.lookup j hj] using h.record a j
  bounded a j := by
    by_cases hj : j = i
    · exact hj ▸ hi.bounded a
    · exact fun hmem => (h.bounded a j ((hst.mem j hj a).mp hmem)).trans hst.max
  marked j := by
    by_cases hj : j = i
    · exact hj ▸ hi.marked
    · simpa only [hst.lookup j hj] using h.marked j

theorem Held.change (h : s.Held j asked) (hst : ChangedAt i s t) (hj : j ≠ i) : t.Held j asked where
  notMem a := by simpa only [hst.mem j hj] using h.notMem a
  bounded := h.bounded.trans hst.max
  reserved := by simpa only [hst.reserved j hj] using h.reserved
  record := by simpa only [hst.lookup j hj] using h.record

/-- **A change at one index** keeps what holds there. -/
theorem Kept.change (h : s.Kept handles) (hst : ChangedAt i s t) (hi : t.InOrderAt i)
    (hsame : ∀ j, j ≠ i → handles' j = handles j)
    (hheld : ∀ asked, handles' i = some asked → t.Held i asked) : t.Kept handles' where
  hd := by rw [isHDEnabled, hst.hdChain]; exact h.hd
  inOrder := h.inOrder.change hst hi
  held j asked hj := by
    by_cases hji : j = i
    · subst hji
      exact hheld asked hj
    · exact (h.held j asked (hsame j hji ▸ hj)).change hst hji

/-! ## New keys -/

/-- **The wallet has the key**, and makes it no second time. -/
structure Known (E : KeyPoolEnv) (k : CKeyID) (s : ScriptPubKeyMan) : Prop where
  haveKey : s.wallet.haveKey k = true
  fresh : s.isHDEnabled = false →
    ∀ n, s.wallet.nMade ≤ n → (E.makeNewKey n).getID E ≠ k

theorem Known.congr (h : s.Known E k) (hwallet : ∀ id, s.wallet.haveKey id = true →
    t.wallet.haveKey id = true) (hmade : s.wallet.nMade ≤ t.wallet.nMade)
    (hhd : t.isHDEnabled = s.isHDEnabled) : t.Known E k where
  haveKey := hwallet k h.haveKey
  fresh hnot n hn := h.fresh (hhd ▸ hnot) n (hmade.trans hn)

theorem isNull_setChainCounter (c : CHDChain) (type : UInt8) (n : UInt32) :
    (c.setChainCounter type n).isNull = c.isNull := by
  unfold CHDChain.setChainCounter
  split_ifs <;> rfl

variable {pubkey : CPubKey}

theorem haveKey_of_deriveFrom {haveKey : CKeyID → Bool} {seed : CKeyID} {fuel : ℕ} {c c' : UInt32}
    (h : deriveFrom E haveKey seed type fuel c = some (pubkey, c')) :
    haveKey (pubkey.getID E) = false := by
  induction fuel generalizing c with
  | zero => cases h
  | succ fuel ih =>
    rw [deriveFrom] at h
    split at h
    · exact ih h
    · next hhave =>
      cases h
      simpa using hhave

/-- **A key has been made**: nobody had it, and the wallet has it now with all the others. -/
structure NewKey (E : KeyPoolEnv) (s : ScriptPubKeyMan) (pubkey : CPubKey) (c : CHDChain)
    (w : KeyWallet) : Prop where
  isNull : c.isNull = s.hdChain.isNull
  haveKey : w.haveKey (pubkey.getID E) = true
  mono : ∀ k, s.wallet.haveKey k = true → w.haveKey k = true
  fresh : ∀ k, s.Known E k → pubkey.getID E ≠ k
  known : ∀ k, s.Known E k → Known E k { s with hdChain := c, wallet := w }

/-- **A new key is none that the wallet has.** -/
theorem generateNewKey_spec (E : KeyPoolEnv) (type : UInt8) (s : ScriptPubKeyMan) :
    (∃ e, exec (generateNewKey E type) s = (.error e, s)) ∨
      ∃ pubkey c w, exec (generateNewKey E type) s =
          (.ok pubkey, { s with hdChain := c, wallet := w }) ∧ s.NewKey E pubkey c w := by
  have hmono : ∀ pubkey : CPubKey, ∀ id, s.wallet.haveKey id = true →
      Function.update s.wallet.haveKey (pubkey.getID E) true id = true := by
    intro pubkey id hid
    by_cases heq : id = pubkey.getID E
    · simp [heq]
    · simpa [heq] using hid
  unfold exec generateNewKey
  by_cases hhd : s.isHDEnabled = true
  · rw [if_pos hhd]
    split
    · exact .inl ⟨_, rfl⟩
    · split
      · exact .inl ⟨_, rfl⟩
      · next pubkey c' hderive =>
        refine .inr ⟨pubkey, _, _, rfl, isNull_setChainCounter _ _ _, by simp, hmono pubkey,
          ?_, fun k hk => hk.congr (hmono pubkey) le_rfl ?_⟩
        · rintro k hk rfl
          have hhave := hk.haveKey
          rw [haveKey_of_deriveFrom hderive] at hhave
          cases hhave
        · simp [isHDEnabled, isNull_setChainCounter]
  · rw [if_neg hhd]
    exact .inr ⟨_, _, _, rfl, rfl, by simp, hmono _,
      fun k hk => hk.fresh (by simpa using hhd) _ le_rfl,
      fun k hk => hk.congr (hmono _) (by simp) rfl⟩

variable (E s) in
/-- The record of a key under the next index. -/
def pooled (pubkey : CPubKey) (type : UInt8) : ScriptPubKeyMan :=
  (({ s with m_max_keypool_index := s.m_max_keypool_index + 1 }.writePool
    (s.m_max_keypool_index + 1) ⟨pubkey, type, false⟩).insert (s.typeSet type)
      (s.m_max_keypool_index + 1)).setPoolKey (pubkey.getID E)
        (some (s.m_max_keypool_index + 1))

theorem lookup_pooled :
    (s.pooled E pubkey type).db.lookup i =
    if i = s.m_max_keypool_index + 1 then some ⟨pubkey, type, false⟩ else s.db.lookup i :=
  lookup_insert_eq_ite i

theorem mem_pooled_iff :
    i ∈ (s.pooled E pubkey type).setKeyPool a ↔
      a = s.typeSet type ∧ i = s.m_max_keypool_index + 1 ∨ i ∈ s.setKeyPool a :=
  mem_insert_iff

theorem changedAt_pooled (s : ScriptPubKeyMan) (pubkey : CPubKey) (type : UInt8) :
    ChangedAt (s.m_max_keypool_index + 1) s (s.pooled E pubkey type) where
  hdChain := rfl
  wallet := rfl
  max := by simp [pooled]
  mem j hj a := by simp [mem_pooled_iff, hj]
  lookup j hj := by rw [lookup_pooled, if_neg hj]
  reserved _ _ := rfl

/-- The types of keys there are. -/
def IsChangeType (type : UInt8) : Prop := type = EXTERNAL ∨ type = INTERNAL ∨ type = STAKING

/-- **What `TopUp` keeps**: what neither a new key nor its record changes. -/
theorem topUp_keeps_new {P : ScriptPubKeyMan → Prop}
    (hkey : ∀ s pubkey c w, NewKey E s pubkey c w → P s → P { s with hdChain := c, wallet := w })
    (hadd : ∀ s pubkey c w type, NewKey E s pubkey c w → IsChangeType type → P s →
      P { s with hdChain := c, wallet := w } →
        P (pooled E { s with hdChain := c, wallet := w } pubkey type)) (kpSize : ℕ) :
    Keeps P (topUp E kpSize) := by
  have hone : ∀ type, IsChangeType type →
      Keeps P (generateNewKey E type >>= fun pubkey => addKeypoolPubkeyWithDB E pubkey type) := by
    intro type htype s hP
    rcases generateNewKey_spec E type s with ⟨e, herror⟩ | ⟨pubkey, c, w, hok, hnew⟩
    · rw [exec_bind_of_error herror]
      exact hP
    · rw [exec_bind_of_ok hok]
      unfold exec addKeypoolPubkeyWithDB
      split
      · exact hkey s pubkey c w hnew hP
      · exact hadd s pubkey c w type hnew htype hP (hkey s pubkey c w hnew hP)
  have hpool : ∀ type, IsChangeType type → ∀ n, Keeps P (generatePool E type n) := by
    intro type htype n
    induction n with
    | zero => exact Keeps.pure ()
    | succ n ih =>
      simp only [generatePool, ← bind_assoc]
      exact (hone type htype).bind fun _ => ih
  intro s hs
  unfold exec topUp
  split
  · exact hs
  · split
    · exact hs
    · exact (hpool EXTERNAL (.inl rfl) _).bind (fun _ =>
        (hpool INTERNAL (.inr (.inl rfl)) _).bind fun _ =>
          (hpool STAKING (.inr (.inr rfl)) _).bind fun _ => Keeps.pure true) s hs

/-! ## What the steps keep -/

theorem typeSet_type (h : s.isHDEnabled = true) (htype : IsChangeType type) :
    (s.typeSet type).type = type := by
  unfold typeSet
  rw [h]
  rcases htype with rfl | rfl | rfl <;> rfl

/-- A new key goes into the set of its type. -/
theorem Kept.pooled (h : s.Kept handles) (pubkey : CPubKey) (htype : IsChangeType type) :
    Kept handles (s.pooled E pubkey type) := by
  have hnew : ∀ b, s.m_max_keypool_index + 1 ∉ s.setKeyPool b := fun b hb => by
    have hle := h.inOrder.bounded b _ hb
    omega
  refine h.change (changedAt_pooled s pubkey type) (.of_mem (fun b hb => ?_)
    (lookup_pooled.trans (if_pos rfl)) (typeSet_type h.hd htype).symm le_rfl (by simp))
    (fun _ _ => rfl) fun asked hheld => ?_
  · exact ((mem_pooled_iff.mp hb).resolve_right (hnew b)).1
  · have hle := (h.held _ asked hheld).bounded
    omega

/-- **`TopUp` keeps the sets in order.** -/
theorem topUp_keeps (kpSize : ℕ) : Keeps (Kept handles) (topUp E kpSize) := by
  refine topUp_keeps_new (fun s pubkey c w hnew h => ?_)
    (fun s pubkey c w type _ htype _ h => h.pooled pubkey htype) kpSize
  refine ⟨by simpa [isHDEnabled, hnew.isNull] using h.hd,
    ⟨h.inOrder.disjoint, h.inOrder.record, h.inOrder.bounded, h.inOrder.marked⟩, fun i asked hi => ?_⟩
  obtain ⟨hnot, hle, hres, hrec⟩ := h.held i asked hi
  exact ⟨hnot, hle, hres, hrec⟩

/-- An external index becomes a pre-split one. -/
theorem Kept.markPreSplit (h : s.Kept handles) (hi : i ∈ s.setKeyPool .external)
    (hrec : s.db.lookup i = some kp) :
    Kept handles (((s.writePool i { kp with m_pre_split := true }).insert .preSplit i).erase
      .external i) := by
  obtain ⟨kp', hrec', htype⟩ := h.inOrder.record .external i hi
  obtain rfl : kp = kp' := Option.some.inj (hrec.symm.trans hrec')
  refine h.change ⟨rfl, rfl, le_rfl, fun j hj a => ?_, fun j hj => ?_, fun _ _ => rfl⟩
    (.of_mem (a := .preSplit) (fun b hb => ?_) (lookup_insert ..) htype
      (h.inOrder.bounded .external i hi) fun _ => htype) (fun _ _ => rfl) fun asked hheld => ?_
  · rw [mem_erase_iff, mem_insert_iff]
    simp [hj]
  · exact lookup_insert_ne hj
  · obtain ⟨hne, hb⟩ := mem_erase_iff.mp hb
    rcases mem_insert_iff.mp hb with ⟨rfl, -⟩ | hb
    · rfl
    · exact absurd rfl (hne (h.inOrder.disjoint b .external i hb hi))
  · exact absurd hi ((h.held i asked hheld).notMem .external)

theorem markPreSplit_keeps {indices : List ℤ} (hnd : indices.Nodup)
    (hmem : ∀ i ∈ indices, i ∈ s.setKeyPool .external) (h : s.Kept handles) :
    Kept handles (exec (markPreSplit indices) s).2 := by
  induction indices generalizing s with
  | nil => exact h
  | cons i indices ih =>
    obtain ⟨hnot, hnd⟩ := nodup_cons.mp hnd
    have hi : i ∈ s.setKeyPool .external := hmem i (by simp)
    obtain ⟨kp, hrec, -⟩ := h.inOrder.record .external i hi
    have hstep : exec (markPreSplitKey i) s = (.ok (), ((s.writePool i
        { kp with m_pre_split := true }).insert .preSplit i).erase .external i) := by
      simp [exec, markPreSplitKey, hrec]
    rw [markPreSplit, exec_bind_of_ok hstep]
    refine ih hnd (fun j hj => ?_) (h.markPreSplit hi hrec)
    have hji : j ≠ i := fun hji => hnot (hji ▸ hj)
    exact mem_erase_iff.mpr ⟨fun _ => hji, mem_insert_iff.mpr (.inr (hmem j (by simp [hj])))⟩

/-- **`MarkPreSplitKeys` keeps the sets in order.** -/
theorem markPreSplitKeys_keeps : Keeps (Kept handles) markPreSplitKeys := by
  intro s h
  exact markPreSplit_keeps (Finset.sort_nodup _ _) (fun i hi => (Finset.mem_sort _).mp hi) h

/-! ## Reserving and reloading -/

/-- A record of the type passes the two tests of `ReserveKeyFromKeyPool` for the set. -/
def Fits (set : KeyPoolSet) (type : UInt8) : Prop :=
  (type == INTERNAL) = decide (set = .internal) ∧ (type == STAKING) = decide (set = .staking)

instance (set : KeyPoolSet) (type : UInt8) : Decidable (Fits set type) :=
  inferInstanceAs (Decidable (_ ∧ _))

theorem fits_type (a : KeyPoolSet) : Fits a a.type := by
  cases a <;> decide

/-- The tests of `ReserveKeyFromKeyPool` are about the set of the type that is asked for. -/
theorem fits_typeSet_iff (s : ScriptPubKeyMan) (type recorded : UInt8) :
    Fits (s.typeSet type) recorded ↔
      (recorded == INTERNAL) = (type == INTERNAL && s.isHDEnabled) ∧
        (recorded == STAKING) = (type == STAKING && s.isHDEnabled) := by
  unfold Fits typeSet
  cases s.isHDEnabled with
  | false => simp
  | true =>
    by_cases hint : type = INTERNAL
    · simp [hint, INTERNAL, STAKING]
    · by_cases hstk : type = STAKING
      · simp [hstk, INTERNAL, STAKING]
      · simp [hint, hstk]

/-- **A record that passes all tests.** -/
theorem checkReserved_eq_ok : s.checkReserved E type i = .ok kp ↔
    s.db.lookup i = some kp ∧ s.wallet.getPubKey (kp.vchPubKey.getID E) = true ∧
      (s.setKeyPool .preSplit = ∅ → Fits (s.typeSet type) kp.type) ∧
      kp.vchPubKey.isValid = true ∧ s.m_index_to_reserved_key i = none := by
  rw [fits_typeSet_iff]
  unfold checkReserved
  cases hrec : s.db.lookup i with
  | none => simp
  | some kp' =>
    simp only [Except.guard_eq_ok, Except.ok.injEq, Option.some.injEq]
    constructor
    · rintro ⟨hhave, hint, hstk, hvalid, hfree, rfl⟩
      simp_all
    · rintro ⟨rfl, hhave, hfits, hvalid, hfree⟩
      simp_all

theorem mem_of_first (h : s.first a = some i) : i ∈ s.setKeyPool a := by
  unfold first at h
  split at h
  · next hne =>
    cases h
    exact Finset.min'_mem _ hne
  · cases h

/-- **What `ReserveKeyFromKeyPool` does**: nothing to an empty set; otherwise an index leaves its
set, and where the record is in order it is reserved. -/
theorem reserveKeyFromKeyPool_cases (E : KeyPoolEnv) (type : UInt8) (s : ScriptPubKeyMan) :
    exec (reserveKeyFromKeyPool E type) s = (.ok none, s) ∨
      ∃ i ∈ s.setKeyPool (s.reserveSet type),
        (∃ e, s.checkReserved E type i = .error e ∧ exec (reserveKeyFromKeyPool E type) s =
          (.error e, s.erase (s.reserveSet type) i)) ∨
        ∃ kp, s.checkReserved E type i = .ok kp ∧ s.db.lookup i = some kp ∧
          exec (reserveKeyFromKeyPool E type) s = (.ok (some (i, kp)),
            ((s.erase (s.reserveSet type) i).setReserved i
              (some (kp.vchPubKey.getID E))).setPoolKey
                (kp.vchPubKey.getID E) none) := by
  unfold exec reserveKeyFromKeyPool
  cases hfirst : s.first (s.reserveSet type) with
  | none => exact .inl rfl
  | some i =>
    refine .inr ⟨i, mem_of_first hfirst, ?_⟩
    cases hcheck : s.checkReserved E type i with
    | error e => exact .inl ⟨e, rfl, by simp [hcheck]⟩
    | ok kp =>
      exact .inr ⟨kp, rfl, (checkReserved_eq_ok.mp hcheck).1, by simp [hcheck]⟩

/-- The errors of `ReserveKeyFromKeyPool` for a record of the wrong type. -/
def Misclassified (e : Failure) : Prop :=
  e = .exception "ReserveKeyFromKeyPool: keypool internal entry misclassified" ∨
    e = .exception "ReserveKeyFromKeyPool: keypool staking entry misclassified"

instance (e : Failure) : Decidable (Misclassified e) := inferInstanceAs (Decidable (_ ∨ _))

theorem reserveSet_type (h : s.isHDEnabled = true) (type : UInt8) :
    (s.reserveSet type).type = EXTERNAL ∨
      (s.reserveSet type).type = type ∧ (type = INTERNAL ∨ type = STAKING) := by
  unfold reserveSet typeSet
  rw [h]
  split_ifs with _ hi hs
  · have hi : type = INTERNAL := by simpa using hi
    exact .inr ⟨hi.symm, .inl hi⟩
  · have hs : type = STAKING := by simpa using hs
    exact .inr ⟨hs.symm, .inr hs⟩
  · exact .inl rfl
  · exact .inl rfl

/-- `ReturnDestination` goes by the type, but for external keys while there are pre-split ones. -/
theorem returnSet_cases (h : s.isHDEnabled = true) (asked : UInt8) :
    (asked = INTERNAL ∨ asked = STAKING) ∧ s.returnSet asked ≠ .preSplit ∧
        (s.returnSet asked).type = asked ∨
      ¬ (asked = INTERNAL ∨ asked = STAKING) ∧ (s.returnSet asked).type = EXTERNAL := by
  unfold returnSet
  rw [h]
  by_cases hi : asked = INTERNAL
  · subst hi
    exact .inl ⟨.inl rfl, by simp, rfl⟩
  · by_cases hs : asked = STAKING
    · subst hs
      exact .inl ⟨.inr rfl, by simp [INTERNAL, STAKING], rfl⟩
    · refine .inr ⟨by simp [hi, hs], ?_⟩
      rw [if_neg (by simpa using hi), if_neg (by simpa using hs)]
      split_ifs <;> rfl

/-- **A record of the type of its set is not misclassified.** -/
theorem not_misclassified_of_inOrder (h : s.InOrder) {e : Failure}
    (hi : i ∈ s.setKeyPool (s.reserveSet type)) (he : s.checkReserved E type i = .error e) :
    ¬ Misclassified e := by
  obtain ⟨kp, hrec, htype⟩ := h.record _ i hi
  unfold checkReserved at he
  simp only [hrec] at he
  -- the two tests are made without pre-split keys, and then the set is that of the type
  by_cases hempty : s.setKeyPool .preSplit = ∅
  · rw [reserveSet, if_pos hempty] at htype
    obtain ⟨hint, hstk⟩ := (fits_typeSet_iff s type kp.type).mp (htype ▸ fits_type _)
    simp only [hint, hstk, bne_self_eq_false, Bool.and_false, Bool.false_eq_true, if_false] at he
    split_ifs at he <;> cases he <;> decide
  · simp only [hempty, decide_false, Bool.false_and, Bool.false_eq_true, if_false] at he
    split_ifs at he <;> cases he <;> decide

theorem loadKeyPool_eq (nIndex : ℤ) (keypool : CKeyPool) (s : ScriptPubKeyMan) :
    (exec (loadKeyPool E nIndex keypool) s).2 = (loadSet keypool).elim s fun set =>
      { s.insert set nIndex with m_max_keypool_index := max s.m_max_keypool_index nIndex }.setPoolKey
        (keypool.vchPubKey.getID E) (some nIndex) := by
  unfold exec loadKeyPool
  cases loadSet keypool <;> rfl

/-- The sets after one record is loaded. -/
theorem mem_loadKeyPool_iff {nIndex : ℤ} :
    i ∈ (exec (loadKeyPool E nIndex kp) s).2.setKeyPool a ↔
      loadSet kp = some a ∧ i = nIndex ∨ i ∈ s.setKeyPool a := by
  rw [loadKeyPool_eq]
  cases hset : loadSet kp with
  | none => simp
  | some set =>
    refine mem_insert_iff.trans ?_
    simp [eq_comm]

/-- The records that are loaded are not above `m_max_keypool_index`. -/
theorem bounded_loadKeyPool {nIndex : ℤ} (h : ∀ a i, i ∈ s.setKeyPool a → i ≤ s.m_max_keypool_index)
    (hi : i ∈ (exec (loadKeyPool E nIndex kp) s).2.setKeyPool a) :
    i ≤ (exec (loadKeyPool E nIndex kp) s).2.m_max_keypool_index := by
  rcases mem_loadKeyPool_iff.mp hi with ⟨hset, rfl⟩ | hi
  · rw [loadKeyPool_eq, hset]
    exact le_max_right _ _
  · have hle := h a i hi
    rw [loadKeyPool_eq]
    cases loadSet kp with
    | none => exact hle
    | some set => exact hle.trans (le_max_left _ _)

/-- **What loading records does to the sets.** -/
theorem loadKeyPools_spec (es : List (Σ _ : ℤ, CKeyPool)) {t : ScriptPubKeyMan}
    (ht : es.foldl (fun s e => (exec (loadKeyPool E e.1 e.2) s).2) s = t)
    (h : ∀ a i, i ∈ s.setKeyPool a → i ≤ s.m_max_keypool_index) :
    (∀ a i, i ∈ t.setKeyPool a → i ≤ t.m_max_keypool_index) ∧
      ∀ a i, i ∈ t.setKeyPool a ↔
        i ∈ s.setKeyPool a ∨ ∃ kp, ⟨i, kp⟩ ∈ es ∧ loadSet kp = some a := by
  induction es generalizing s with
  | nil =>
    subst ht
    exact ⟨h, by simp⟩
  | cons e es ih =>
    obtain ⟨hmax, hsets⟩ := ih ht fun a i => bounded_loadKeyPool h
    refine ⟨hmax, fun a i => ?_⟩
    rw [hsets, mem_loadKeyPool_iff]
    constructor
    · rintro ((⟨hset, rfl⟩ | hi) | ⟨kp, hmem, hset⟩)
      · exact .inr ⟨e.2, by simp, hset⟩
      · exact .inl hi
      · exact .inr ⟨kp, by simp [hmem], hset⟩
    · rintro (hi | ⟨kp, hmem, hset⟩)
      · exact .inl (.inr hi)
      · rcases mem_cons.mp hmem with heq | hmem
        · subst heq
          exact .inl (.inl ⟨hset, rfl⟩)
        · exact .inr ⟨kp, hmem, hset⟩

/-- A restart loads each record into one set. -/
theorem mem_reload_iff : i ∈ (s.reload E).setKeyPool a ↔
    ∃ kp, s.db.lookup i = some kp ∧ loadSet kp = some a := by
  obtain ⟨-, hsets⟩ := loadKeyPools_spec s.db.entries (t := s.reload E) rfl (by simp)
  rw [hsets]
  simp [← mem_lookup_iff]

/-- A record is loaded into one set. -/
theorem reload_disjoint (ha : i ∈ (s.reload E).setKeyPool a) (hb : i ∈ (s.reload E).setKeyPool b) :
    a = b := by
  obtain ⟨kp, hrec, hset⟩ := mem_reload_iff.mp ha
  obtain ⟨kp', hrec', hset'⟩ := mem_reload_iff.mp hb
  rw [hrec, Option.some.injEq] at hrec'
  rw [← hrec', hset] at hset'
  exact Option.some.inj hset'

/-- A restart reads the database and the wallet, and forgets what was reserved. -/
theorem reload_frame : (s.reload E).db = s.db ∧ (s.reload E).hdChain = s.hdChain ∧
    (s.reload E).wallet = s.wallet ∧ (s.reload E).m_index_to_reserved_key = fun _ => none := by
  refine foldlRecOn (motive := fun t : ScriptPubKeyMan => t.db = s.db ∧ t.hdChain = s.hdChain ∧
    t.wallet = s.wallet ∧ t.m_index_to_reserved_key = fun _ => none) _ _ ⟨rfl, rfl, rfl, rfl⟩ ?_
  intro t ht e _
  rw [loadKeyPool_eq]
  cases loadSet e.2 <;> exact ht

theorem type_of_loadSet (hmark : kp.m_pre_split = true → kp.type = EXTERNAL)
    (h : loadSet kp = some a) : kp.type = a.type := by
  unfold loadSet at h
  split_ifs at h with h1 h2 h3 h4 <;> cases h
  · exact hmark h1
  · exact h2
  · exact h3
  · exact h4

/-- **After a restart the sets are in order**, if only external keys are marked. -/
theorem inOrder_reload (hmark : ∀ i kp, s.db.lookup i = some kp → kp.m_pre_split = true →
    kp.type = EXTERNAL) : (s.reload E).InOrder := by
  obtain ⟨hmax, -⟩ := loadKeyPools_spec s.db.entries (t := s.reload E) rfl (by simp)
  obtain ⟨hdb, -⟩ := reload_frame
  refine ⟨fun a b i => reload_disjoint, fun a i hi => ?_, hmax, ?_⟩
  · obtain ⟨kp, hrec, hset⟩ := mem_reload_iff.mp hi
    exact ⟨kp, by rw [hdb]; exact hrec, type_of_loadSet (hmark i kp hrec) hset⟩
  · rw [hdb]
    exact hmark

theorem reload_isHDEnabled : (s.reload E).isHDEnabled = s.isHDEnabled := by
  simp [isHDEnabled, reload_frame.2.1]

/-- **The classes are right**: the sets share no index, the records of the external, the
internal and the staking set are of the type of their set, and no reservation finds a record of
the wrong type. -/
structure Classified (E : KeyPoolEnv) (s : ScriptPubKeyMan) : Prop where
  disjoint : ∀ a b, a ≠ b → Disjoint (s.setKeyPool a) (s.setKeyPool b)
  record : ∀ a, a ≠ .preSplit → ∀ i ∈ s.setKeyPool a,
    ∃ kp, s.db.lookup i = some kp ∧ kp.type = a.type
  reserve : ∀ type e, (exec (reserveKeyFromKeyPool E type) s).1 = .error e → ¬ Misclassified e

theorem InOrder.classified (h : s.InOrder) : s.Classified E where
  disjoint a b hab := Finset.disjoint_left.mpr fun i ha hb => hab (h.disjoint a b i ha hb)
  record a _ i hi := h.record a i hi
  reserve type e he := by
    rcases reserveKeyFromKeyPool_cases E type s with hnone | ⟨i, hi, ⟨e', hcheck, herr⟩ | hok⟩
    · rw [hnone] at he
      cases he
    · rw [herr] at he
      cases he
      exact not_misclassified_of_inOrder h hi hcheck
    · obtain ⟨kp, -, -, hok⟩ := hok
      rw [hok] at he
      cases he

end ScriptPubKeyMan

/-! ## Runs of calls -/

/-- The key pool with the reservations its callers hold: the type each was made with. -/
structure KeyPoolUse where
  man : ScriptPubKeyMan
  handles : ℤ → Option UInt8

/-- **A call to the key pool.** A reservation that is returned is returned with the type it was
made with. -/
inductive KeyPoolCall
  | topUp (kpSize : ℕ)
  | reserve (type : UInt8)
  | keep (nIndex : ℤ)
  | giveBack (nIndex : ℤ)
  | markPreSplitKeys
  | reload

namespace KeyPoolUse

open ScriptPubKeyMan

variable (E : KeyPoolEnv)

/-- What a call leaves. An assertion that fails stops the process; what is thrown is caught. -/
def settle {α : Type} (r : Result α × ScriptPubKeyMan) (handles : ℤ → Option UInt8) :
    Result KeyPoolUse :=
  match r.1 with
  | .error (.assertion condition) => .error (.assertion condition)
  | _ => .ok ⟨r.2, handles⟩

/-- One call. After a restart nobody holds a reservation. -/
def step (u : KeyPoolUse) : KeyPoolCall → Result KeyPoolUse
  | .topUp kpSize => settle (exec (topUp E kpSize) u.man) u.handles
  | .reserve type =>
    let r := exec (reserveKeyFromKeyPool E type) u.man
    match r.1 with
    | .ok (some (nIndex, _)) => settle r (Function.update u.handles nIndex (some type))
    | _ => settle r u.handles
  | .keep nIndex =>
    match u.handles nIndex with
    | none => .ok u
    | some _ => settle (exec (keepDestination nIndex) u.man) (Function.update u.handles nIndex none)
  | .giveBack nIndex =>
    match u.handles nIndex with
    | none => .ok u
    | some type =>
      settle (exec (returnDestination nIndex type) u.man) (Function.update u.handles nIndex none)
  | .markPreSplitKeys => settle (exec markPreSplitKeys u.man) u.handles
  | .reload => .ok ⟨u.man.reload E, fun _ => none⟩

/-- **A return that fits**: a key that is returned as an internal or a staking key is one; it
was not taken from the pre-split keys. -/
def ReturnFits (u : KeyPoolUse) : KeyPoolCall → Prop
  | .giveBack nIndex => ∀ type ∈ u.handles nIndex, type = INTERNAL ∨ type = STAKING →
      ∀ kp ∈ u.man.db.lookup nIndex, kp.type = type
  | _ => True

instance (u : KeyPoolUse) : (call : KeyPoolCall) → Decidable (u.ReturnFits call)
  | .giveBack nIndex => inferInstanceAs (Decidable (∀ type ∈ u.handles nIndex,
      type = INTERNAL ∨ type = STAKING → ∀ kp ∈ u.man.db.lookup nIndex, kp.type = type))
  | .topUp _ | .reserve _ | .keep _ | .markPreSplitKeys | .reload => .isTrue trivial

variable {E} {u v : KeyPoolUse} {i : ℤ} {type : UInt8}

theorem settle_eq_ok {α : Type} {r : Result α × ScriptPubKeyMan} {handles : ℤ → Option UInt8}
    (h : settle r handles = .ok v) : v = ⟨r.2, handles⟩ := by
  unfold settle at h
  split at h
  · cases h
  · cases h
    rfl

/-- **What a reservation does**: nothing, or an index leaves its set; then its record stands in
the way, or it is reserved. -/
theorem step_reserve (h : u.step E (.reserve type) = .ok v) : v = u ∨
    ∃ i ∈ u.man.setKeyPool (u.man.reserveSet type), ChangedAt i u.man v.man ∧
      v.man.db = u.man.db ∧ v.man.setKeyPool = (u.man.erase (u.man.reserveSet type) i).setKeyPool ∧
      (v.handles = u.handles ∨ ∃ kp, u.man.checkReserved E type i = .ok kp ∧
        u.man.db.lookup i = some kp ∧ v.handles = Function.update u.handles i (some type) ∧
        (v.man.m_index_to_reserved_key i).isSome = true) := by
  simp only [step] at h
  have hmem : ∀ {i j}, j ≠ i → ∀ a, j ∈ (u.man.erase (u.man.reserveSet type) i).setKeyPool a ↔
      j ∈ u.man.setKeyPool a := fun hj a => mem_erase_iff.trans (by simp [hj])
  rcases reserveKeyFromKeyPool_cases E type u.man with
    hnone | ⟨i, hi, ⟨e, -, herr⟩ | ⟨kp, hcheck, hrec, hok⟩⟩
  · rw [hnone] at h
    exact .inl (settle_eq_ok h)
  · rw [herr] at h
    obtain rfl := settle_eq_ok h
    exact .inr ⟨i, hi, ⟨rfl, rfl, le_rfl, fun j hj => hmem hj, fun _ _ => rfl, fun _ _ => rfl⟩,
      rfl, rfl, .inl rfl⟩
  · rw [hok] at h
    obtain rfl := settle_eq_ok h
    exact .inr ⟨i, hi, ⟨rfl, rfl, le_rfl, fun j hj => hmem hj, fun _ _ => rfl,
      fun j hj => by simp [hj]⟩, rfl, rfl, .inr ⟨kp, hcheck, hrec, rfl, by simp⟩⟩

/-- **What keeping a key does**: its record is erased. -/
theorem step_keep (h : u.step E (.keep i) = .ok v) : v = u ∨
    v.handles = Function.update u.handles i none ∧ ChangedAt i u.man v.man ∧
      v.man.db.lookup i = none ∧ v.man.setKeyPool = u.man.setKeyPool := by
  simp only [step] at h
  split at h
  · cases h
    exact .inl rfl
  · have hdb : ∀ j, j ≠ i → (u.man.erasePool i).db.lookup j = u.man.db.lookup j :=
      fun j hj => lookup_erase_ne hj
    obtain rfl := settle_eq_ok h
    refine .inr ⟨rfl, ?_⟩
    simp only [exec, keepDestination]
    split
    · exact ⟨⟨rfl, rfl, le_rfl, fun _ _ _ => .rfl, hdb, fun _ _ => rfl⟩, lookup_erase .., rfl⟩
    · split
      · exact ⟨⟨rfl, rfl, le_rfl, fun _ _ _ => .rfl, hdb, fun _ _ => rfl⟩, lookup_erase .., rfl⟩
      · exact ⟨⟨rfl, rfl, le_rfl, fun _ _ _ => .rfl, hdb, fun j hj => by simp [hj]⟩,
          lookup_erase .., rfl⟩

/-- **What returning a key does**: its index goes into a set. -/
theorem step_giveBack (h : u.step E (.giveBack i) = .ok v) : v = u ∧ u.handles i = none ∨
    ∃ asked, u.handles i = some asked ∧ v.handles = Function.update u.handles i none ∧
      ChangedAt i u.man v.man ∧ v.man.db = u.man.db ∧
      v.man.setKeyPool = (u.man.insert (u.man.returnSet asked) i).setKeyPool := by
  simp only [step] at h
  split at h
  · next hi =>
    cases h
    exact .inl ⟨rfl, hi⟩
  · next asked hi =>
    have hmem : ∀ j, j ≠ i → ∀ a, j ∈ (u.man.insert (u.man.returnSet asked) i).setKeyPool a ↔
        j ∈ u.man.setKeyPool a := fun j hj a => mem_insert_iff.trans (by simp [hj])
    obtain rfl := settle_eq_ok h
    refine .inr ⟨asked, hi, rfl, ?_⟩
    simp only [exec, returnDestination]
    split
    · exact ⟨⟨rfl, rfl, le_rfl, hmem, fun _ _ => rfl, fun _ _ => rfl⟩, rfl, rfl⟩
    · exact ⟨⟨rfl, rfl, le_rfl, hmem, fun _ _ => rfl, fun j hj => by simp [hj]⟩, rfl, rfl⟩

/-- **The invariant** of the calls. -/
def Sound (u : KeyPoolUse) : Prop := u.man.Kept u.handles

theorem Sound.reserve (hu : u.Sound) (h : u.step E (.reserve type) = .ok v) : v.Sound := by
  rcases step_reserve h with rfl | ⟨i, hi, hst, hdb, hsets, hhandles⟩
  · exact hu
  · -- the index that is reserved is out of its set, and was in no other
    have hnot : ∀ a, i ∉ v.man.setKeyPool a := by
      intro a ha
      rw [hsets] at ha
      obtain ⟨hne, ha⟩ := mem_erase_iff.mp ha
      exact hne (hu.inOrder.disjoint _ _ i ha hi) rfl
    have hout : v.man.InOrderAt i := .of_notMem hnot (by rw [hdb]; exact hu.inOrder.marked i)
    obtain ⟨kp, hrec, htype⟩ := hu.inOrder.record _ i hi
    rcases hhandles with hsame | ⟨kp', -, hrec', hupdate, hres⟩
    · refine hu.change hst hout (fun j _ => by rw [hsame]) fun asked hheld => ?_
      exact absurd hi ((hu.held i asked (hsame ▸ hheld)).notMem _)
    · refine hu.change hst hout (fun j hj => by simp [hupdate, hj]) fun asked hheld => ?_
      obtain rfl : type = asked := by simpa [hupdate] using hheld
      refine ⟨hnot, (hu.inOrder.bounded _ i hi).trans hst.max, hres, kp, hdb ▸ hrec, ?_⟩
      rw [htype]
      exact reserveSet_type hu.hd type

theorem Sound.keep (hu : u.Sound) (h : u.step E (.keep i) = .ok v) : v.Sound := by
  rcases hi : u.handles i with _ | asked
  · simp only [step, hi] at h
    cases h
    exact hu
  · rcases step_keep h with rfl | ⟨hupdate, hst, hdb, hsets⟩
    · exact hu
    · have hout : v.man.InOrderAt i :=
        .of_notMem (by rw [hsets]; exact (hu.held i asked hi).notMem) (by simp [hdb])
      exact hu.change hst hout (fun j hj => by simp [hupdate, hj]) (by simp [hupdate])

/-- **A return keeps the invariant exactly if it fits.** -/
theorem Sound.giveBack (hu : u.Sound) (h : u.step E (.giveBack i) = .ok v) :
    (v.man.Classified E → u.ReturnFits (.giveBack i)) ∧ (u.ReturnFits (.giveBack i) → v.Sound) := by
  rcases step_giveBack h with ⟨rfl, hi⟩ | ⟨asked, hi, hupdate, hst, hdb, hsets⟩
  · exact ⟨fun _ => by simp [ReturnFits, hi], fun _ => hu⟩
  · have hheld := hu.held i asked hi
    obtain ⟨kp, hrec, htype⟩ := hheld.record
    have hfits : u.ReturnFits (.giveBack i) ↔
        (asked = INTERNAL ∨ asked = STAKING → kp.type = asked) := by
      simp [ReturnFits, hi, hrec]
    rw [hfits]
    constructor
    · -- the index is in the set of the type now, and so its record has to be of that type
      intro hclass hasked
      obtain ⟨-, hset, hof⟩ := (returnSet_cases hu.hd asked).resolve_right fun h => h.1 hasked
      obtain ⟨kp', hrec', htype'⟩ := hclass.record _ hset i (by
        rw [hsets]
        exact mem_insert_iff.mpr (.inl ⟨rfl, rfl⟩))
      rw [hdb, hrec, Option.some.injEq] at hrec'
      rw [hrec', htype', hof]
    · intro hfit
      have hof : kp.type = (u.man.returnSet asked).type := by
        rcases returnSet_cases hu.hd asked with ⟨hasked, -, hof⟩ | ⟨hnot, hof⟩
        · rw [hof, hfit hasked]
        · rw [hof]
          exact htype.resolve_right fun h => hnot h.2
      refine hu.change hst (.of_mem (fun b hb => ?_) (hdb ▸ hrec) hof
        (hheld.bounded.trans hst.max) (hu.inOrder.marked i kp hrec))
        (fun j hj => by simp [hupdate, hj]) (by simp [hupdate])
      rw [hsets] at hb
      exact ((mem_insert_iff.mp hb).resolve_right (hheld.notMem b)).1

/-- **One call** keeps the classes exactly if a return fits. -/
theorem Sound.step (hu : u.Sound) {call : KeyPoolCall} (h : u.step E call = .ok v) :
    (v.man.Classified E → u.ReturnFits call) ∧ (u.ReturnFits call → v.Sound) := by
  cases call with
  | topUp kpSize =>
    rw [settle_eq_ok h]
    exact ⟨fun _ => trivial, fun _ => topUp_keeps kpSize u.man hu⟩
  | reserve type => exact ⟨fun _ => trivial, fun _ => hu.reserve h⟩
  | keep i => exact ⟨fun _ => trivial, fun _ => hu.keep h⟩
  | giveBack i => exact hu.giveBack h
  | markPreSplitKeys =>
    rw [settle_eq_ok h]
    exact ⟨fun _ => trivial, fun _ => markPreSplitKeys_keeps u.man hu⟩
  | reload =>
    cases h
    refine ⟨fun _ => trivial, fun _ => ⟨?_, inOrder_reload hu.inOrder.marked, by simp⟩⟩
    rw [reload_isHDEnabled]
    exact hu.hd

/-- Nobody holds a reservation. -/
def start (man : ScriptPubKeyMan) : KeyPoolUse := ⟨man, fun _ => none⟩

end KeyPoolUse

/-- **When the classes of the key pool are kept.** For an HD wallet whose sets are in order,
along every run of calls the sets share no index, hold records of their own type, and no
reservation finds a record of the wrong type, exactly if every return of the run fits. -/
theorem keyPool_classified_iff (E : KeyPoolEnv) {man : ScriptPubKeyMan}
    (hhd : man.isHDEnabled = true) (hman : man.InOrder) (calls : List KeyPoolCall) :
    Run.Always (KeyPoolUse.step E) (.start man) (fun u => u.man.Classified E) calls ↔
      Run.EachStep (KeyPoolUse.step E) (.start man) (fun u call => u.ReturnFits call) calls :=
  Run.always_iff_of_invariant KeyPoolUse.Sound
    ⟨hhd, hman, fun i asked h => by simp [KeyPoolUse.start] at h⟩
    (fun u hu => hu.inOrder.classified)
    fun _ _ _ u v _ _ h hu => hu.step h

/-! ## A pre-split key returned as an internal one -/

namespace KeyPoolSample

/-- The key of a seed for a type and a counter, told apart by their first bytes. -/
def childKey (type : UInt8) (counter : UInt32) : CPubKey :=
  .ofBytes (2 :: type :: UInt8.ofNat counter.toNat :: List.replicate 30 0)

/-- Keys that can be run by hand: the id of a key is its first bytes. -/
def env : KeyPoolEnv where
  hash160 := .firstBytes 20
  checkSecret := fun _ => true
  getPubKey := fun _ => childKey 0 0
  signCompact := fun _ _ => none
  recoverCompact := fun _ _ => none
  ecdh := fun _ _ => none
  deriveChild := fun _ => childKey
  makeNewKey := fun n => childKey 3 (UInt32.ofNat n)
  nKeyPoolArg := 1

/-- The id of the first external key. -/
def keyID : CKeyID := (childKey EXTERNAL 0).getID env.toKeyOps

/-- An HD wallet with the seed and one key. -/
def wallet : KeyWallet where
  nWalletVersion := 169900
  isLocked := false
  haveKey := fun id => id == .firstBytes 20 [1] || id == keyID
  watched := fun _ => false
  mapScripts := ∅
  addressBook := fun _ => none
  nMade := 0

/-- The key pool of an upgraded wallet: its one key is pre-split. -/
def man : ScriptPubKeyMan where
  hdChain := ⟨.firstBytes 20 [1], 1, 0, 0⟩
  setKeyPool := fun set => if set = .preSplit then {1} else ∅
  m_max_keypool_index := 1
  m_pool_key_to_index := fun id => if id = keyID then some 1 else none
  m_index_to_reserved_key := fun _ => none
  db := AList.insert 1 ⟨childKey EXTERNAL 0, EXTERNAL, true⟩ ∅
  wallet := wallet

theorem mem_man_iff {a : KeyPoolSet} {i : ℤ} : i ∈ man.setKeyPool a ↔ a = .preSplit ∧ i = 1 := by
  by_cases ha : a = .preSplit
  · simp [man, ha]
  · simp [man, ha]

theorem man_inOrder : man.InOrder where
  disjoint a b i ha hb := (mem_man_iff.mp ha).1.trans (mem_man_iff.mp hb).1.symm
  record a i hi := by
    obtain ⟨rfl, rfl⟩ := mem_man_iff.mp hi
    exact ⟨_, rfl, rfl⟩
  bounded a i hi := (mem_man_iff.mp hi).2.le
  marked := by decide +kernel

end KeyPoolSample

open KeyPoolSample in
/-- The pre-split key is reserved and kept, the pool is filled up, and a staking key is reserved
and returned. -/
theorem keyPool_classified_filled_up :
    let calls : List KeyPoolCall :=
      [.reserve INTERNAL, .keep 1, .topUp 2, .reserve STAKING, .giveBack 6]
    (∃ u, Run.after (KeyPoolUse.step env) (.start man) calls = .ok u ∧
      u.man.setKeyPool .internal = {4, 5} ∧ u.man.setKeyPool .staking = {6, 7}) ∧
      Run.Always (KeyPoolUse.step env) (.start man) (fun u => u.man.Classified env) calls := by
  refine ⟨by decide +kernel, (keyPool_classified_iff env rfl man_inOrder _).mpr ?_⟩
  refine Run.EachAction.eachStep (.of_get ?_)
  decide +kernel

open KeyPoolSample in
/-- **A pre-split key can become an internal one**: it is reserved for an internal address and
returned. -/
theorem not_keyPool_classified :
    ¬ ∀ (E : KeyPoolEnv) (man : ScriptPubKeyMan) (calls : List KeyPoolCall),
      man.isHDEnabled = true → man.InOrder →
        Run.Always (KeyPoolUse.step E) (.start man) (fun u => u.man.Classified E) calls := by
  intro h
  let calls : List KeyPoolCall := [.reserve INTERNAL, .giveBack 1]
  obtain ⟨u, hu, hmem, hext⟩ : ∃ u, Run.after (KeyPoolUse.step env) (.start man) calls = .ok u ∧
      1 ∈ u.man.setKeyPool .internal ∧
      u.man.db.lookup 1 = some ⟨childKey EXTERNAL 0, EXTERNAL, true⟩ := by
    decide +kernel
  obtain ⟨kp, hrec, htype⟩ := (h env man calls rfl man_inOrder calls (prefix_refl _) u
    hu).record .internal (by simp) 1 hmem
  rw [hext, Option.some.injEq] at hrec
  rw [← hrec] at htype
  exact absurd htype (by decide)

end Passion
