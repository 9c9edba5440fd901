import Passion.Wallet.KeyPoolClasses

/-!
# Used keys of the key pool

A key that is seen on the chain should be handed out no more. `MarkUnusedAddresses` finds the index
of such a key and takes out of one set everything up to that index; while there are pre-split keys,
that set is the pre-split one, whichever set the index is in.
-/

namespace Passion

open AList Persistent ScriptPubKeyMan List

namespace ScriptPubKeyMan

variable {E : KeyPoolEnv} {s t : ScriptPubKeyMan} {k : CKeyID} {i : ℤ} {kp : CKeyPool}
variable {type : UInt8}

/-- The pool has no record of the key. -/
def NoRecord (E : KeyPoolEnv) (k : CKeyID) (s : ScriptPubKeyMan) : Prop :=
  ∀ i kp, s.db.lookup i = some kp → kp.vchPubKey.getID E ≠ k

/-- **The key is gone**: the wallet has it, and the pool no record of it. -/
structure Gone (E : KeyPoolEnv) (k : CKeyID) (s : ScriptPubKeyMan) : Prop where
  known : s.Known E k
  noRecord : s.NoRecord E k

/-- **The walk for a key takes the index**: the key leads to an index that is not below it, and
it is in the set that `MarkReserveKeysAsUsed` walks up to there. -/
def Takes (s : ScriptPubKeyMan) (keyid : CKeyID) (i : ℤ) : Prop :=
  ∃ j, s.m_pool_key_to_index keyid = some j ∧ i ∈ s.setKeyPool (s.usedSet j) ∧ i ≤ j

/-- **The loop of `MarkUnusedAddresses` takes the index**: the walk for one of the keys does, in
the state in which the loop comes to the key. -/
def TakenBy (E : KeyPoolEnv) : List CKeyID → ScriptPubKeyMan → ℤ → Prop
  | [], _, _ => False
  | keyid :: keyids, s, i => s.Takes keyid i ∨ TakenBy E keyids (exec (markKeyUsed E keyid) s).2 i

/-- **What is left of the records of a key** that the wallet has: those that were not taken. -/
structure Sifted (E : KeyPoolEnv) (k : CKeyID) (taken : ℤ → Prop) (s t : ScriptPubKeyMan) :
    Prop where
  known : t.Known E k
  isHDEnabled : t.isHDEnabled = s.isHDEnabled
  max : s.m_max_keypool_index ≤ t.m_max_keypool_index
  old : ∀ i kp, kp.vchPubKey.getID E = k → t.db.lookup i = some kp →
    s.db.lookup i = some kp ∧ ¬ taken i
  left : ∀ i kp, s.db.lookup i = some kp → i ≤ s.m_max_keypool_index → ¬ taken i →
    t.db.lookup i = some kp

theorem Sifted.trans {taken taken' : ℤ → Prop} {u : ScriptPubKeyMan} (h : Sifted E k taken s t)
    (h' : Sifted E k taken' t u) : Sifted E k (fun i => taken i ∨ taken' i) s u where
  known := h'.known
  isHDEnabled := h'.isHDEnabled.trans h.isHDEnabled
  max := h.max.trans h'.max
  old i kp hid hrec := by
    obtain ⟨ht, hnot'⟩ := h'.old i kp hid hrec
    obtain ⟨hs, hnot⟩ := h.old i kp hid ht
    exact ⟨hs, not_or.mpr ⟨hnot, hnot'⟩⟩
  left i kp hrec hle hnot := by
    obtain ⟨hnot, hnot'⟩ := not_or.mp hnot
    exact h'.left i kp (h.left i kp hrec hle hnot) (hle.trans h.max) hnot'

/-! ## New keys -/

theorem topUp_keeps_gone (kpSize : ℕ) : Keeps (Gone E k) (topUp E kpSize) := by
  refine topUp_keeps_new (fun s pubkey c w hnew h => ⟨hnew.known k h.known, h.noRecord⟩)
    (fun s pubkey c w type hnew _ h h' => ⟨⟨h'.known.haveKey, h'.known.fresh⟩, ?_⟩) kpSize
  intro i kp hrec
  rw [lookup_pooled] at hrec
  split_ifs at hrec
  · cases hrec
    exact hnew.fresh k h.known
  · exact h'.noRecord i kp hrec

/-- A record that is there stays, since the indices of new keys are above it, and new records
are of other keys. -/
theorem topUp_keeps_sifted {taken : ℤ → Prop} (kpSize : ℕ) :
    Keeps (Sifted E k taken s) (topUp E kpSize) := by
  refine topUp_keeps_new (fun u pubkey c w hnew h => ?_) (fun u pubkey c w type hnew _ h h' => ?_)
    kpSize
  · refine ⟨hnew.known k h.known, ?_, h.max, h.old, h.left⟩
    simpa [ScriptPubKeyMan.isHDEnabled, hnew.isNull] using h.isHDEnabled
  · refine ⟨⟨h'.known.haveKey, h'.known.fresh⟩, h'.isHDEnabled, h'.max.trans (by simp [pooled]),
      fun i kp hid hrec => ?_, fun i kp hrec hle hnot => ?_⟩
    · rw [lookup_pooled] at hrec
      split_ifs at hrec
      · cases hrec
        exact absurd hid (hnew.fresh k h.known)
      · exact h'.old i kp hid hrec
    · have hmax := h'.max
      rw [lookup_pooled, if_neg (by omega)]
      exact h'.left i kp hrec hle hnot

theorem typeSet_ne_preSplit (s : ScriptPubKeyMan) (type : UInt8) : s.typeSet type ≠ .preSplit := by
  unfold typeSet
  split_ifs <;> simp

/-- No key is added to the pre-split ones. -/
theorem pooled_preSplit {pubkey : CPubKey} :
    (s.pooled E pubkey type).setKeyPool .preSplit = s.setKeyPool .preSplit := by
  ext j
  simp [mem_pooled_iff, (typeSet_ne_preSplit s type).symm]

/-! ## The walk -/

section Walk

variable {fInternal fStaking : Bool} {set : KeyPoolSet} {index : ℤ}

/-- **What the walk does at one index**: the record goes. -/
structure Removed (index : ℤ) (s t : ScriptPubKeyMan) : Prop where
  hdChain : t.hdChain = s.hdChain
  max : t.m_max_keypool_index = s.m_max_keypool_index
  haveKey : t.wallet.haveKey = s.wallet.haveKey
  nMade : t.wallet.nMade = s.wallet.nMade
  db : t.db = s.db.erase index

variable (E fInternal fStaking set s index) in
theorem removeUsed_spec : Removed index s (removeUsed E fInternal fStaking set s index) := by
  unfold removeUsed recordUse
  cases s.db.lookup index with
  | none => exact ⟨rfl, rfl, rfl, rfl, rfl⟩
  | some kp =>
    dsimp only
    split
    · exact ⟨rfl, rfl, rfl, rfl, rfl⟩
    · exact ⟨rfl, rfl, rfl, rfl, rfl⟩

/-- The records after some are erased, one after the other. -/
theorem lookup_foldl_erase {f : ScriptPubKeyMan → ℤ → ScriptPubKeyMan}
    (hf : ∀ s j, (f s j).db = s.db.erase j) (indices : List ℤ) :
    (indices.foldl f s).db.lookup i = if i ∈ indices then none else s.db.lookup i := by
  induction indices generalizing s with
  | nil => simp
  | cons j indices ih =>
    rw [foldl_cons, ih, hf, lookup_erase_eq_ite]
    by_cases hij : i = j <;> simp [hij]

variable (E s fInternal fStaking set) in
/-- **What the walk leaves as it is.** -/
theorem walk_frame (indices : List ℤ) :
    let t := indices.foldl (removeUsed E fInternal fStaking set) s
    t.hdChain = s.hdChain ∧ t.m_max_keypool_index = s.m_max_keypool_index ∧
      ∀ k, s.Known E k → t.Known E k := by
  refine foldlRecOn (motive := fun t : ScriptPubKeyMan => t.hdChain = s.hdChain ∧
    t.m_max_keypool_index = s.m_max_keypool_index ∧ ∀ k, s.Known E k → t.Known E k) _ _
    ⟨rfl, rfl, fun _ h => h⟩ ?_
  rintro t ⟨hhd, hmax, hknown⟩ index -
  have hst := removeUsed_spec E t fInternal fStaking set index
  refine ⟨hst.hdChain.trans hhd, hst.max.trans hmax, fun k hk => (hknown k hk).congr ?_ ?_ ?_⟩
  · simp [hst.haveKey]
  · exact hst.nMade.ge
  · simp [isHDEnabled, hst.hdChain]

end Walk

/-- **What `MarkReserveKeysAsUsed` does**: the assertion fails, or it walks the set up to the
index. -/
theorem markReserveKeysAsUsed_cases (E : KeyPoolEnv) (i : ℤ) (s : ScriptPubKeyMan) :
    (∃ e, exec (markReserveKeysAsUsed E i) s = (.error e, s)) ∨
      ∃ fInternal fStaking, ∃ l : List ℤ,
        (∀ j, j ∈ l ↔ j ∈ s.setKeyPool (s.usedSet i) ∧ j ≤ i) ∧ exec (markReserveKeysAsUsed E i) s =
          (.ok (), l.foldl (removeUsed E fInternal fStaking (s.usedSet i)) s) := by
  simp only [exec, markReserveKeysAsUsed]
  split
  · exact .inl ⟨_, rfl⟩
  · exact .inr ⟨_, _, _, fun j => by simp, rfl⟩

/-- **The records after `MarkReserveKeysAsUsed`.** -/
theorem markReserveKeysAsUsed_spec (h : exec (markReserveKeysAsUsed E i) s = (.ok (), t))
    (hknown : s.Known E k) :
    Sifted E k (fun j => j ∈ s.setKeyPool (s.usedSet i) ∧ j ≤ i) s t := by
  rcases markReserveKeysAsUsed_cases E i s with ⟨e, herror⟩ | ⟨fi, fs, l, hl, hok⟩
  · rw [herror] at h
    cases h
  · rw [hok] at h
    obtain ⟨-, rfl⟩ := Prod.mk.inj h
    obtain ⟨hhd, hmax, hkeep⟩ := walk_frame E s fi fs (s.usedSet i) l
    have hrecs : ∀ j, (l.foldl (removeUsed E fi fs (s.usedSet i)) s).db.lookup j =
        if j ∈ s.setKeyPool (s.usedSet i) ∧ j ≤ i then none else s.db.lookup j := fun j => by
      simp [lookup_foldl_erase fun s j => (removeUsed_spec E s fi fs _ j).db, hl]
    refine ⟨hkeep k hknown, by rw [isHDEnabled, hhd, ← isHDEnabled], hmax.ge,
      fun j kp _ hrec => ?_, fun j kp hrec _ hnot => ?_⟩
    · rw [hrecs] at hrec
      split_ifs at hrec with hj
      exact ⟨hrec, hj⟩
    · rw [hrecs, if_neg hnot, hrec]

/-! ## A key that is gone -/

theorem Gone.congr (h : s.Gone E k) (hrec : ∀ i kp, t.db.lookup i = some kp →
      ∃ j kp', s.db.lookup j = some kp' ∧ kp'.vchPubKey = kp.vchPubKey)
    (hwallet : t.wallet = s.wallet) (hhd : t.hdChain = s.hdChain) : t.Gone E k where
  known := h.known.congr (by simp [hwallet]) (by rw [hwallet]) (by simp [isHDEnabled, hhd])
  noRecord i kp hi := by
    obtain ⟨j, kp', hj, hsame⟩ := hrec i kp hi
    rw [← hsame]
    exact h.noRecord j kp' hj

theorem markKeyUsed_keeps_gone (keyid : CKeyID) : Keeps (Gone E k) (markKeyUsed E keyid) := by
  refine Keeps.state_bind fun s => ?_
  split
  · exact Keeps.pure ()
  · next i _ =>
    refine Keeps.bind (fun s h => ?_) fun _ => (topUp_keeps_gone 0).bind fun _ => Keeps.pure ()
    rcases markReserveKeysAsUsed_cases E i s with ⟨e, herror⟩ | ⟨fi, fs, l, -, hok⟩
    · rw [herror]
      exact h
    · have hsifted := markReserveKeysAsUsed_spec hok h.known
      rw [hok]
      exact ⟨hsifted.known, fun j kp hrec hid => h.noRecord j kp (hsifted.old j kp hid hrec).1 hid⟩

theorem markKeysUsed_keeps_gone (keyids : List CKeyID) :
    Keeps (Gone E k) (markKeysUsed E keyids) := by
  induction keyids with
  | nil => exact Keeps.pure ()
  | cons keyid keyids ih => exact (markKeyUsed_keeps_gone keyid).bind fun _ => ih

/-- **One key of the loop**: the walk for it takes records. -/
theorem sifted_markKeyUsed {keyid : CKeyID} (h : exec (markKeyUsed E keyid) s = (.ok (), t))
    (hknown : s.Known E k) : Sifted E k (s.Takes keyid) s t := by
  obtain ⟨s', s'', hstate, h⟩ := exec_bind_eq_ok.mp h
  cases hstate
  split at h
  · next hnone =>
    cases h
    have hnot : ∀ i, ¬ s.Takes keyid i := by simp [Takes, hnone]
    exact ⟨hknown, rfl, le_rfl, fun i kp _ hrec => ⟨hrec, hnot i⟩, fun i kp hrec _ _ => hrec⟩
  · next j hindex =>
    obtain ⟨_, u, hmark, h⟩ := exec_bind_eq_ok.mp h
    obtain ⟨b, v, htop, h⟩ := exec_bind_eq_ok.mp h
    cases h
    have htakes : s.Takes keyid = fun i => i ∈ s.setKeyPool (s.usedSet j) ∧ i ≤ j := by
      funext i
      simp [Takes, hindex]
    rw [htakes]
    have hkept := topUp_keeps_sifted 0 u (markReserveKeysAsUsed_spec hmark hknown)
    rwa [htop] at hkept

/-- **The loop of `MarkUnusedAddresses`.** -/
theorem sifted_markKeysUsed {keyids : List CKeyID}
    (h : exec (markKeysUsed E keyids) s = (.ok (), t)) (hknown : s.Known E k) :
    Sifted E k (TakenBy E keyids s) s t := by
  induction keyids generalizing s with
  | nil =>
    cases h
    exact ⟨hknown, rfl, le_rfl, fun i kp _ hrec => ⟨hrec, id⟩, fun i kp hrec _ _ => hrec⟩
  | cons keyid keyids ih =>
    obtain ⟨_, u, hfirst, hrest⟩ := exec_bind_eq_ok.mp h
    have hone := sifted_markKeyUsed hfirst hknown
    have htwo := hone.trans (ih hrest hone.known)
    have hu : (exec (markKeyUsed E keyid) s).2 = u := by rw [hfirst]
    rwa [← hu] at htwo

/-! ## Later calls -/

theorem markPreSplit_keeps_gone (indices : List ℤ) : Keeps (Gone E k) (markPreSplit indices) := by
  induction indices with
  | nil => exact Keeps.pure ()
  | cons i indices ih =>
    refine Keeps.bind (fun s h => ?_) fun _ => ih
    unfold exec markPreSplitKey
    split
    · exact h
    · next kp hkp =>
      refine h.congr (fun j kp' hrec => ?_) rfl rfl
      by_cases hj : j = i
      · subst hj
        obtain rfl : _ = kp' := by simpa using hrec
        exact ⟨j, kp, hkp, rfl⟩
      · exact ⟨j, kp', by simpa [hj] using hrec, rfl⟩

theorem erasePools_frame (indices : List ℤ) : (indices.foldl erasePool s).wallet = s.wallet ∧
    (indices.foldl erasePool s).hdChain = s.hdChain :=
  foldlRecOn (motive := fun t : ScriptPubKeyMan => t.wallet = s.wallet ∧
    t.hdChain = s.hdChain) _ _ ⟨rfl, rfl⟩ fun _ h _ _ => h

theorem newKeyPool_keeps_gone : Keeps (Gone E k) (newKeyPool E) := by
  intro s h
  refine topUp_keeps_gone 0 _ (h.congr (fun i kp hrec => ?_) ?_ ?_)
  · rw [show _ = _ from lookup_foldl_erase (fun _ _ => rfl) _] at hrec
    split_ifs at hrec
    exact ⟨i, kp, hrec, rfl⟩
  · exact (erasePools_frame _).1
  · exact (erasePools_frame _).2

theorem Gone.reload (h : s.Gone E k) : (s.reload E).Gone E k := by
  obtain ⟨hdb, hhd, hwallet, -⟩ := reload_frame
  exact h.congr (fun i kp hrec => ⟨i, kp, hdb ▸ hrec, rfl⟩) hwallet hhd

theorem reserve_keeps_gone (type : UInt8) : Keeps (Gone E k) (reserveKeyFromKeyPool E type) := by
  intro s h
  rcases reserveKeyFromKeyPool_cases E type s with
    hnone | ⟨i, -, ⟨e, -, herr⟩ | ⟨kp, -, -, hok⟩⟩
  · rw [hnone]
    exact h
  · rw [herr]
    exact h.congr (fun i kp hrec => ⟨i, kp, hrec, rfl⟩) rfl rfl
  · rw [hok]
    exact h.congr (fun i kp hrec => ⟨i, kp, hrec, rfl⟩) rfl rfl

theorem keepDestination_keeps_gone (nIndex : ℤ) : Keeps (Gone E k) (keepDestination nIndex) := by
  intro s h
  have herase : ∀ i kp, (s.erasePool nIndex).db.lookup i = some kp →
      ∃ j kp', s.db.lookup j = some kp' ∧ kp'.vchPubKey = kp.vchPubKey := by
    intro i kp hrec
    rw [erasePool_db, lookup_erase_eq_ite] at hrec
    split_ifs at hrec
    exact ⟨i, kp, hrec, rfl⟩
  simp only [exec, keepDestination]
  split
  · exact h.congr herase rfl rfl
  · split
    · exact h.congr herase rfl rfl
    · exact h.congr herase rfl rfl

theorem returnDestination_keeps_gone (nIndex : ℤ) (type : UInt8) :
    Keeps (Gone E k) (returnDestination nIndex type) := by
  intro s h
  simp only [exec, returnDestination]
  split
  · exact h.congr (fun i kp hrec => ⟨i, kp, hrec, rfl⟩) rfl rfl
  · exact h.congr (fun i kp hrec => ⟨i, kp, hrec, rfl⟩) rfl rfl

/-- The calls of the key pool. -/
inductive Call
  | topUp (kpSize : ℕ)
  | reserve (type : UInt8)
  | keep (nIndex : ℤ)
  | giveBack (nIndex : ℤ) (type : UInt8)
  | markUnusedAddresses (script : CScript)
  | markPreSplitKeys
  | newKeyPool
  | reload

/-- The state after a call. An exception is caught by the caller, an assertion ends the
program. -/
def outlive {α : Type} (r : Result α × ScriptPubKeyMan) : Result ScriptPubKeyMan :=
  match r.1 with
  | .error (.assertion condition) => .error (.assertion condition)
  | _ => .ok r.2

variable (E) in
/-- One call. -/
def step (s : ScriptPubKeyMan) : Call → Result ScriptPubKeyMan
  | .topUp kpSize => outlive (exec (topUp E kpSize) s)
  | .reserve type => outlive (exec (reserveKeyFromKeyPool E type) s)
  | .keep nIndex => outlive (exec (keepDestination nIndex) s)
  | .giveBack nIndex type => outlive (exec (returnDestination nIndex type) s)
  | .markUnusedAddresses script => outlive (exec (markUnusedAddresses E script) s)
  | .markPreSplitKeys => outlive (exec markPreSplitKeys s)
  | .newKeyPool => outlive (exec (newKeyPool E) s)
  | .reload => .ok (s.reload E)

theorem outlive_eq_ok {α : Type} {r : Result α × ScriptPubKeyMan} (h : outlive r = .ok t) :
    t = r.2 := by
  unfold outlive at h
  split at h
  · cases h
  · cases h
    rfl

/-- **A key that is gone stays gone.** -/
theorem Gone.step {call : Call} (h : s.Gone E k) (hstep : s.step E call = .ok t) : t.Gone E k := by
  cases call with
  | topUp kpSize => rw [outlive_eq_ok hstep]; exact topUp_keeps_gone kpSize s h
  | reserve type => rw [outlive_eq_ok hstep]; exact reserve_keeps_gone type s h
  | keep nIndex => rw [outlive_eq_ok hstep]; exact keepDestination_keeps_gone nIndex s h
  | giveBack nIndex type =>
    rw [outlive_eq_ok hstep]
    exact returnDestination_keeps_gone nIndex type s h
  | markUnusedAddresses script =>
    rw [outlive_eq_ok hstep]
    exact Keeps.state_bind (fun s => markKeysUsed_keeps_gone (s.getAffectedKeys E script)) s h
  | markPreSplitKeys =>
    rw [outlive_eq_ok hstep]
    exact Keeps.state_bind (fun s => markPreSplit_keeps_gone _) s h
  | newKeyPool => rw [outlive_eq_ok hstep]; exact newKeyPool_keeps_gone s h
  | reload =>
    cases hstep
    exact h.reload

variable (E) in
/-- **Some later call hands the key out**: after calls that return, `ReserveKeyFromKeyPool`
returns a record of it. -/
def HandsOut (s : ScriptPubKeyMan) (k : CKeyID) : Prop :=
  ∃ calls t type i kp, Run.after (step E) s calls = .ok t ∧
    (exec (reserveKeyFromKeyPool E type) t).1 = .ok (some (i, kp)) ∧
    kp.vchPubKey.getID E.toKeyOps = k

theorem Gone.not_handsOut (h : s.Gone E k) : ¬ s.HandsOut E k := by
  rintro ⟨calls, t, type, i, kp, hrun, hres, hid⟩
  have hgone : t.Gone E k :=
    Run.invariant h (fun _ _ _ _ _ _ _ hstep hu => Gone.step hu hstep) hrun
  rcases reserveKeyFromKeyPool_cases E type t with
    hnone | ⟨j, -, ⟨e, -, herr⟩ | ⟨kp', -, hrec, hok⟩⟩
  · rw [hnone] at hres
    cases hres
  · rw [herr] at hres
    cases hres
  · rw [hok] at hres
    cases hres
    exact hgone.noRecord i kp hrec hid

/-! ## A record that is left -/

theorem first_eq_min' {a : KeyPoolSet} (h : (s.setKeyPool a).Nonempty) :
    s.first a = some ((s.setKeyPool a).min' h) :=
  dif_pos h

/-- The index that is tried first is handed out if its record passes the tests. -/
theorem reserve_of_first (hfirst : s.first (s.reserveSet type) = some i)
    (hcheck : s.checkReserved E type i = .ok kp) :
    (exec (reserveKeyFromKeyPool E type) s).1 = .ok (some (i, kp)) := by
  simp [exec, reserveKeyFromKeyPool, hfirst, hcheck]

/-- **The record will be handed out**: its index is in the set of its type or a pre-split one,
and no index of a set is reserved. -/
structure Ready (E : KeyPoolEnv) (type : UInt8) (i : ℤ) (kp : CKeyPool) (s : ScriptPubKeyMan) :
    Prop where
  free : ∀ a j, j ∈ s.setKeyPool a → s.m_index_to_reserved_key j = none
  disjoint : ∀ a b j, j ∈ s.setKeyPool a → j ∈ s.setKeyPool b → a = b
  record : s.db.lookup i = some kp
  known : s.wallet.haveKey (kp.vchPubKey.getID E) = true
  valid : kp.vchPubKey.isValid = true
  place : i ∈ s.setKeyPool .preSplit ∨ i ∈ s.setKeyPool (s.typeSet type) ∧
    Fits (s.typeSet type) kp.type

namespace Ready

/-- The set of the next reservation is not empty. -/
theorem exists_first (h : s.Ready E type i kp) :
    ∃ j, s.first (s.reserveSet type) = some j ∧ j ∈ s.setKeyPool (s.reserveSet type) := by
  have hne : (s.setKeyPool (s.reserveSet type)).Nonempty := by
    unfold reserveSet
    split_ifs with hempty
    · obtain ⟨hi, -⟩ := h.place.resolve_left (by simp [hempty])
      exact ⟨i, hi⟩
    · exact Finset.nonempty_iff_ne_empty.mpr hempty
  exact ⟨_, first_eq_min' hne, mem_of_first (first_eq_min' hne)⟩

theorem erase {j : ℤ} (h : s.Ready E type i kp) (hj : j ∈ s.setKeyPool (s.reserveSet type))
    (hij : i ≠ j) {reserved : ℤ → Option CKeyID} {keys : CKeyID → Option ℤ}
    (hreserved : ∀ j', j' ≠ j → reserved j' = s.m_index_to_reserved_key j') :
    Ready E type i kp { s.erase (s.reserveSet type) j with
      m_index_to_reserved_key := reserved, m_pool_key_to_index := keys } where
  free a j' hj' := by
    obtain ⟨hne, hj'⟩ := mem_erase_iff.mp hj'
    have hjj : j' ≠ j := fun heq => hne (h.disjoint a _ j' hj' (heq ▸ hj)) heq
    exact (hreserved j' hjj).trans (h.free a j' hj')
  disjoint a b j' ha hb := h.disjoint a b j' (mem_erase_iff.mp ha).2 (mem_erase_iff.mp hb).2
  record := h.record
  known := h.known
  valid := h.valid
  place := by
    rcases h.place with hi | ⟨hi, hfits⟩
    · exact .inl (mem_erase_iff.mpr ⟨fun _ => hij, hi⟩)
    · exact .inr ⟨mem_erase_iff.mpr ⟨fun _ => hij, hi⟩, hfits⟩

theorem exception_of_checkReserved {j : ℤ} {e : Failure}
    (hfree : s.m_index_to_reserved_key j = none) (h : s.checkReserved E type j = .error e) :
    ∃ what, e = .exception what := by
  simp only [checkReserved] at h
  split at h
  · cases h
    exact ⟨_, rfl⟩
  · rw [hfree] at h
    split_ifs at h <;> cases h <;> first | exact ⟨_, rfl⟩ | contradiction

/-- **A reservation of another index** leaves the record ready. -/
theorem step_reserve {j : ℤ} (h : s.Ready E type i kp)
    (hfirst : s.first (s.reserveSet type) = some j) (hij : i ≠ j) :
    ∃ t, s.step E (.reserve type) = .ok t ∧ t.Ready E type i kp ∧
      t.setKeyPool = (s.erase (s.reserveSet type) j).setKeyPool ∧
      t.typeSet type = s.typeSet type := by
  have hj := mem_of_first hfirst
  simp only [step, exec, reserveKeyFromKeyPool, hfirst]
  cases hcheck : s.checkReserved E type j with
  | error e =>
    obtain ⟨what, rfl⟩ := exception_of_checkReserved (h.free _ j hj) hcheck
    exact ⟨_, rfl, h.erase hj hij (fun _ _ => rfl), rfl, rfl⟩
  | ok kp' => exact ⟨_, rfl, h.erase hj hij (fun j' hj' => by simp [hj']), rfl, rfl⟩

/-- **A record that is ready is handed out**, after the indices before it. -/
theorem exists_reserve (h : s.Ready E type i kp) :
    ∃ calls t, Run.after (step E) s calls = .ok t ∧
      (exec (reserveKeyFromKeyPool E type) t).1 = .ok (some (i, kp)) := by
  -- each reservation takes an index out of the two sets
  induction hn : (s.setKeyPool .preSplit).card + (s.setKeyPool (s.typeSet type)).card
    using Nat.strong_induction_on generalizing s with
  | _ n ih =>
    obtain ⟨j, hfirst, hj⟩ := h.exists_first
    by_cases hij : i = j
    · subst hij
      refine ⟨[], s, rfl, reserve_of_first hfirst (checkReserved_eq_ok.mpr ⟨h.record, ?_,
        fun hempty => (h.place.resolve_left (by simp [hempty])).2, h.valid, h.free _ i hj⟩)⟩
      simp [KeyWallet.getPubKey, h.known]
    · obtain ⟨t, hstep, hready, hsets, htype⟩ := h.step_reserve hfirst hij
      have hless : (t.setKeyPool .preSplit).card + (t.setKeyPool (t.typeSet type)).card < n := by
        rw [htype, hsets, ← hn]
        have hcard := Finset.card_erase_lt_of_mem hj
        have hne := typeSet_ne_preSplit s type
        unfold reserveSet at hcard ⊢
        split_ifs at hcard ⊢
        · simpa [hne.symm] using hcard
        · simpa [hne] using hcard
      obtain ⟨calls, u, hrun, hres⟩ := ih _ hless hready rfl
      refine ⟨.reserve type :: calls, u, ?_, hres⟩
      rw [Run.after, foldlM_cons, hstep]
      exact hrun

end Ready

/-- **The records of the pool are kept well**: no index is above `m_max_keypool_index`, and a
record has a valid key and a type of keys that the wallet hands out. -/
structure WellKept (s : ScriptPubKeyMan) : Prop where
  bounded : ∀ i kp, s.db.lookup i = some kp → i ≤ s.m_max_keypool_index
  valid : ∀ i kp, s.db.lookup i = some kp → kp.vchPubKey.isValid = true
  type : ∀ i kp, s.db.lookup i = some kp → kp.m_pre_split = true ∨ kp.type = EXTERNAL ∨
    s.isHDEnabled = true ∧ (kp.type = INTERNAL ∨ kp.type = STAKING)

/-- **A record that is in the database is handed out after a restart.** -/
theorem handsOut_of_record (hknown : s.Known E k) (hrec : s.db.lookup i = some kp)
    (hid : kp.vchPubKey.getID E = k) (hvalid : kp.vchPubKey.isValid = true)
    (htype : kp.m_pre_split = true ∨ kp.type = EXTERNAL ∨
      s.isHDEnabled = true ∧ (kp.type = INTERNAL ∨ kp.type = STAKING)) : s.HandsOut E k := by
  obtain ⟨hdb, hhd, hwallet, hreserved⟩ := reload_frame
  have hready : (s.reload E).Ready E kp.type i kp := by
    refine ⟨fun a j _ => by rw [hreserved], fun a b j => reload_disjoint, by rw [hdb]; exact hrec,
      ?_, hvalid, ?_⟩
    · rw [hwallet, hid]
      exact hknown.haveKey
    · rw [fits_typeSet_iff]
      simp only [mem_reload_iff, hrec]
      by_cases hsplit : kp.m_pre_split = true
      · exact .inl (by simp [loadSet, hsplit])
      · right
        rcases htype.resolve_left hsplit with hext | ⟨hd, hint | hstk⟩
        · refine ⟨?_, ?_⟩
          · simp [loadSet, hsplit, hext, typeSet, EXTERNAL, INTERNAL, STAKING]
          · simp [hext, EXTERNAL, INTERNAL, STAKING]
        · have hd : (s.reload E).isHDEnabled = true := by rw [reload_isHDEnabled, hd]
          simp [loadSet, hsplit, hint, typeSet, hd]
        · have hd : (s.reload E).isHDEnabled = true := by rw [reload_isHDEnabled, hd]
          simp [loadSet, hsplit, hstk, typeSet, hd, EXTERNAL, INTERNAL, STAKING]
  obtain ⟨calls, t, hrun, hres⟩ := hready.exists_reserve
  refine ⟨.reload :: calls, t, kp.type, i, kp, ?_, hres, hid⟩
  exact hrun

theorem haveKey_of_mem_affectedKeysOf {w : KeyWallet} {fuel : ℕ} {script : CScript}
    (h : k ∈ affectedKeysOf E w fuel script) : w.haveKey k = true := by
  induction fuel generalizing script with
  | zero => simp [affectedKeysOf] at h
  | succ fuel ih =>
    obtain ⟨dest, -, hk⟩ := mem_flatMap.mp h
    cases dest with
    | keyID id =>
      simp only at hk
      split at hk
      · next hhave =>
        obtain rfl : k = id := by simpa using hk
        exact hhave
      · simp at hk
    | scriptID id =>
      simp only at hk
      split at hk
      · simp at hk
      · exact ih hk
    | noDestination => simp at hk

end ScriptPubKeyMan

/-- **Used keys are not handed out, exactly if the loop takes their records.** After
`MarkUnusedAddresses(script)`, a key of the script is handed out by no later call if every record
of it is taken at one of the keys of the script, in the state in which the loop comes to that
key; and for a pool whose records are kept well, only then. -/
theorem usedKeys_handsOut (E : KeyPoolEnv) {s t : ScriptPubKeyMan} {script : CScript}
    (hfresh : s.isHDEnabled = false → ∀ n, s.wallet.nMade ≤ n →
      s.wallet.haveKey ((E.makeNewKey n).getID E.toKeyOps) = false)
    (hmark : exec (ScriptPubKeyMan.markUnusedAddresses E script) s = (.ok (), t)) {k : CKeyID}
    (hk : k ∈ s.getAffectedKeys E script) :
    let taken := ∀ i kp, s.db.lookup i = some kp → kp.vchPubKey.getID E.toKeyOps = k →
      ScriptPubKeyMan.TakenBy E (s.getAffectedKeys E script) s i
    (taken → ¬ t.HandsOut E k) ∧ (s.WellKept → ¬ t.HandsOut E k → taken) := by
  have hknown : s.Known E k := by
    have hhave := haveKey_of_mem_affectedKeysOf hk
    refine ⟨hhave, fun hhd n hn heq => ?_⟩
    have hnot := hfresh hhd n hn
    rw [heq, hhave] at hnot
    cases hnot
  have hsifted := sifted_markKeysUsed hmark hknown
  refine ⟨fun htaken => Gone.not_handsOut ⟨hsifted.known, fun i kp hrec hid => ?_⟩,
    fun hkept hnot i kp hrec hid => ?_⟩
  · obtain ⟨hold, hleft⟩ := hsifted.old i kp hid hrec
    exact hleft (htaken i kp hold hid)
  · -- a record that no turn took is still there, and is read again after a restart
    by_contra hleft
    have hrec' := hsifted.left i kp hrec (hkept.bounded i kp hrec) hleft
    refine hnot (handsOut_of_record hsifted.known hrec' hid (hkept.valid i kp hrec) ?_)
    rw [hsifted.isHDEnabled]
    exact hkept.type i kp hrec

/-! ## A used key next to a pre-split one -/

namespace KeyPoolSample

open Opcode

/-- The script that pays to a key. -/
def payTo (id : CKeyID) : CScript :=
  [OP_DUP, OP_HASH160, 0x14] ++ id.val ++ [OP_EQUALVERIFY, OP_CHECKSIG]

/-- The record of the second external key. -/
def newKey : CKeyPool := ⟨childKey EXTERNAL 1, EXTERNAL, false⟩

/-- Its id. -/
def newKeyID : CKeyID := newKey.vchPubKey.getID env.toKeyOps

/-- An upgraded wallet, locked, with the pre-split key and an external one that is newer. -/
def splitMan : ScriptPubKeyMan where
  hdChain := man.hdChain
  setKeyPool := fun set => if set = .preSplit then {1} else if set = .external then {2} else ∅
  m_max_keypool_index := 2
  m_pool_key_to_index := fun id =>
    if id = keyID then some 1 else if id = newKeyID then some 2 else none
  m_index_to_reserved_key := fun _ => none
  db := man.db.insert 2 newKey
  wallet := { wallet with
    isLocked := true
    haveKey := Function.update wallet.haveKey newKeyID true }

/-- Both keys are in one script: the staker is the pre-split one, and the owner the other. -/
def bothKeys : CScript := Script.getScriptForStakeDelegation keyID newKeyID

end KeyPoolSample

open KeyPoolSample in
/-- The walk for the pre-split key empties its set, so that the loop takes the other key too. -/
theorem usedKeys_handsOut_bothKeys :
    (exec (ScriptPubKeyMan.markUnusedAddresses env bothKeys) splitMan).1 = .ok () ∧
      splitMan.getAffectedKeys env bothKeys = [keyID, newKeyID] ∧ ¬ splitMan.Takes newKeyID 2 ∧
      ¬ (exec (ScriptPubKeyMan.markUnusedAddresses env bothKeys) splitMan).2.HandsOut env
        newKeyID := by
  have hkeys : splitMan.getAffectedKeys env bothKeys = [keyID, newKeyID] := by decide +kernel
  have hok : (exec (markUnusedAddresses env bothKeys) splitMan).1 = .ok () := by decide +kernel
  have hfirst : splitMan.m_pool_key_to_index newKeyID = some 2 ∧
      2 ∉ splitMan.setKeyPool (splitMan.usedSet 2) := by decide +kernel
  refine ⟨hok, hkeys, ?_, (usedKeys_handsOut env (fun hnot => by cases hnot) (exec_eq_of_fst hok)
    (by rw [hkeys]; simp)).1 fun i kp hrec hid => ?_⟩
  · simp [Takes, hfirst]
  · have hi : ∀ i kp, splitMan.db.lookup i = some kp → kp.vchPubKey.getID env = newKeyID → i = 2 := by
      decide +kernel
    rw [hkeys, hi i kp hrec hid]
    exact .inr (.inl ⟨2, by decide +kernel, by decide +kernel, le_rfl⟩)

open KeyPoolSample in
/-- **A used key can be handed out**: an external one that is newer than a pre-split key. -/
theorem not_usedKeys_gone :
    ¬ ∀ (E : KeyPoolEnv) (s t : ScriptPubKeyMan) (script : CScript), s.WellKept →
      (s.isHDEnabled = false → ∀ n, s.wallet.nMade ≤ n →
        s.wallet.haveKey ((E.makeNewKey n).getID E.toKeyOps) = false) →
      exec (ScriptPubKeyMan.markUnusedAddresses E script) s = (.ok (), t) →
        ∀ k ∈ s.getAffectedKeys E script, ¬ t.HandsOut E k := by
  intro h
  have hkeys : splitMan.getAffectedKeys env (payTo newKeyID) = [newKeyID] := by decide +kernel
  refine h env splitMan _ (payTo newKeyID)
    ⟨by decide +kernel, by decide +kernel, by decide +kernel⟩ (fun hnot => by cases hnot)
    (exec_eq_of_fst (by decide +kernel)) newKeyID (by rw [hkeys]; simp) ?_
  have hres : (exec (reserveKeyFromKeyPool env EXTERNAL)
      (exec (markUnusedAddresses env (payTo newKeyID)) splitMan).2).1 = .ok (some (2, newKey)) := by
    decide +kernel
  exact ⟨[], _, EXTERNAL, 2, newKey, rfl, hres, rfl⟩

end Passion
