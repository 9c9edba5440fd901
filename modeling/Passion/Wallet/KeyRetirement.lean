import Passion.Wallet.UsedKeys

/-!
# The keys that `NewKeyPool` retires

`NewKeyPool` erases the records of the external, the internal and the staking set and fills the pool
with new keys. Two kinds of old keys stay: the pre-split ones, which are handed out before all
others, and those that are reserved at that moment, which come back when they are returned, as the
first of their set.
-/

namespace Passion

open Persistent Finset ScriptPubKeyMan

variable {E : KeyPoolEnv} {s t : ScriptPubKeyMan} {k : CKeyID} {i : ℤ} {kp : CKeyPool}
variable {type : UInt8}

namespace ScriptPubKeyMan

/-- **The key was generated between two states**: the wallet has it only in the second one. -/
def GeneratedSince (s t : ScriptPubKeyMan) (k : CKeyID) : Prop :=
  s.wallet.haveKey k = false ∧ t.wallet.haveKey k = true

theorem typeSet_congr (h : t.isHDEnabled = s.isHDEnabled) (type : UInt8) :
    t.typeSet type = s.typeSet type := by
  rw [typeSet, typeSet, h]

theorem returnSet_eq_typeSet (h : s.setKeyPool .preSplit = ∅) (type : UInt8) :
    s.returnSet type = s.typeSet type := by
  simp [returnSet, typeSet, h]

theorem reserveSet_eq_typeSet (h : s.setKeyPool .preSplit = ∅) (type : UInt8) :
    s.reserveSet type = s.typeSet type :=
  if_pos h

/-! ## Records of old keys -/

/-- **The record of an old key stands**: the wallet has the key, and the sets of the three types
have only newer indices. -/
structure Standing (E : KeyPoolEnv) (s : ScriptPubKeyMan) (i : ℤ) (kp : CKeyPool)
    (t : ScriptPubKeyMan) : Prop where
  hd : t.isHDEnabled = s.isHDEnabled
  haveKey : t.wallet.haveKey (kp.vchPubKey.getID E) = true
  record : t.db.lookup i = some kp
  bounded : i ≤ t.m_max_keypool_index
  preSplit : t.setKeyPool .preSplit = s.setKeyPool .preSplit
  reserved : t.m_index_to_reserved_key = s.m_index_to_reserved_key
  newer : ∀ a ≠ .preSplit, ∀ j ∈ t.setKeyPool a, i < j

theorem topUp_keeps_standing (kpSize : ℕ) : Keeps (Standing E s i kp) (topUp E kpSize) := by
  refine topUp_keeps_new (fun t pubkey c w hnew h => ?_) (fun t pubkey c w type _ _ _ h => ?_) kpSize
  · exact ⟨by simpa [isHDEnabled, hnew.isNull] using h.hd, hnew.mono _ h.haveKey, h.record,
      h.bounded, h.preSplit, h.reserved, h.newer⟩
  · have hst := changedAt_pooled (E := E) { t with hdChain := c, wallet := w } pubkey type
    refine ⟨h.hd, h.haveKey, ?_, h.bounded.trans hst.max, pooled_preSplit.trans h.preSplit,
      h.reserved, fun a ha j hj => ?_⟩
    · rw [hst.lookup i (Int.lt_add_one_of_le h.bounded).ne]
      exact h.record
    · rcases mem_pooled_iff.mp hj with ⟨-, rfl⟩ | hj
      · exact Int.lt_add_one_of_le h.bounded
      · exact h.newer a ha j hj

/-- **What `NewKeyPool` starts from**: only the pre-split set is left. -/
theorem exec_newKeyPool (E : KeyPoolEnv) (s : ScriptPubKeyMan) : ∃ s₀ : ScriptPubKeyMan,
    exec (newKeyPool E) s = exec (topUp E 0) s₀ ∧
      (s₀.hdChain = s.hdChain ∧ s₀.wallet = s.wallet ∧
        s₀.m_max_keypool_index = s.m_max_keypool_index ∧
        s₀.m_index_to_reserved_key = s.m_index_to_reserved_key) ∧
      (∀ a, s₀.setKeyPool a = if a = .preSplit then s.setKeyPool .preSplit else ∅) ∧
      (∀ i kp, s₀.db.lookup i = some kp → s.db.lookup i = some kp) ∧
      ∀ i, (∀ a, i ∈ s.setKeyPool a → a = .preSplit) → s₀.db.lookup i = s.db.lookup i := by
  have hdb : ∀ i, _ = ite _ _ _ := fun i => lookup_foldl_erase (f := erasePool) (s := s) (i := i)
    (fun _ _ => rfl) (s.setKeyPool .internal ∪ s.setKeyPool .external ∪ s.setKeyPool .staking).sort
  refine ⟨_, rfl, ?_, fun a => rfl, fun i kp hrec => ?_, fun i hi => ?_⟩
  · exact List.foldlRecOn (motive := fun t : ScriptPubKeyMan => t.hdChain = s.hdChain ∧
      t.wallet = s.wallet ∧ t.m_max_keypool_index = s.m_max_keypool_index ∧
      t.m_index_to_reserved_key = s.m_index_to_reserved_key) _ _ ⟨rfl, rfl, rfl, rfl⟩
      fun _ h _ _ => h
  · rw [hdb] at hrec
    split_ifs at hrec
    exact hrec
  · rw [hdb, if_neg]
    simp only [mem_sort, mem_union]
    rintro ((hmem | hmem) | hmem)
    · cases hi _ hmem
    · cases hi _ hmem
    · cases hi _ hmem

/-- **A record that `NewKeyPool` leaves stands.** -/
theorem standing_newKeyPool (hrec : s.db.lookup i = some kp)
    (hhave : s.wallet.haveKey (kp.vchPubKey.getID E) = true)
    (hle : i ≤ s.m_max_keypool_index) (hi : ∀ a, i ∈ s.setKeyPool a → a = .preSplit) :
    Standing E s i kp (exec (newKeyPool E) s).2 := by
  obtain ⟨s₀, hexec, ⟨hchain, hwallet, hmax, hreserved⟩, hsets, -, hdb⟩ := exec_newKeyPool E s
  rw [hexec]
  refine topUp_keeps_standing 0 s₀ ⟨by simp [isHDEnabled, hchain], by rwa [hwallet], ?_,
    by rwa [hmax], by rw [hsets, if_pos rfl], hreserved, fun a ha j hj => ?_⟩
  · rw [hdb i hi, hrec]
  · rw [hsets, if_neg ha] at hj
    simp at hj

end ScriptPubKeyMan

/-! ## Later calls -/

/-- **The calls that use the pool**: keys are reserved, kept and returned, and the pool is
filled up. -/
def KeyPoolCall.IsUse : KeyPoolCall → Prop
  | .topUp _ | .reserve _ | .keep _ | .giveBack _ => True
  | .markPreSplitKeys | .reload => False

namespace KeyPoolUse

open ScriptPubKeyMan

variable {u v : KeyPoolUse}

variable (E) in
/-- **The keys of an earlier state are retired**: whatever calls follow, a key that is handed out
was generated since. -/
def Retires (s : ScriptPubKeyMan) (u : KeyPoolUse) : Prop :=
  ∀ calls : List KeyPoolCall, (∀ call ∈ calls, call.IsUse) → ∀ v, Run.after (step E) u calls = .ok v →
    ∀ type i kp, (exec (reserveKeyFromKeyPool E type) v.man).1 = .ok (some (i, kp)) →
      s.GeneratedSince v.man (kp.vchPubKey.getID E.toKeyOps)

/-- **Nothing is left outside of the three sets**: there are no pre-split keys, and no key is
reserved under a record of the type it was asked for. -/
structure NothingLeft (u : KeyPoolUse) : Prop where
  preSplit : u.man.setKeyPool .preSplit = ∅
  handles : ∀ i asked, u.handles i = some asked → ∀ kp, u.man.db.lookup i = some kp →
    ¬ Fits (u.man.typeSet asked) kp.type

/-- **The records of the pool are accounted for**: the indices of the sets and the reserved ones
have records of valid keys that the wallet has; no index is in two of these places. -/
structure Accounted (E : KeyPoolEnv) (u : KeyPoolUse) : Prop where
  disjoint : ∀ a b i, i ∈ u.man.setKeyPool a → i ∈ u.man.setKeyPool b → a = b
  free : ∀ a i, i ∈ u.man.setKeyPool a → u.man.m_index_to_reserved_key i = none
  held : ∀ i asked, u.handles i = some asked →
    (∀ a, i ∉ u.man.setKeyPool a) ∧ (u.man.m_index_to_reserved_key i).isSome = true
  record : ∀ i, (∃ a, i ∈ u.man.setKeyPool a) ∨ (u.handles i).isSome = true →
    i ≤ u.man.m_max_keypool_index ∧ ∃ kp, u.man.db.lookup i = some kp ∧
      u.man.wallet.haveKey (kp.vchPubKey.getID E.toKeyOps) = true ∧ kp.vchPubKey.isValid = true

/-- **The pool is renewed**: there are no pre-split keys, and an index from which a key could be
handed out has the record of a new one. -/
structure Renewed (E : KeyPoolEnv) (s : ScriptPubKeyMan) (handles : ℤ → Option UInt8)
    (t : ScriptPubKeyMan) : Prop where
  hd : t.isHDEnabled = s.isHDEnabled
  known : ∀ k, s.wallet.haveKey k = true → t.Known E k
  preSplit : t.setKeyPool .preSplit = ∅
  pooled : ∀ a i kp, i ∈ t.setKeyPool a → t.db.lookup i = some kp → Fits a kp.type →
    s.GeneratedSince t (kp.vchPubKey.getID E)
  held : ∀ i asked kp, handles i = some asked → t.db.lookup i = some kp →
    Fits (s.typeSet asked) kp.type → s.GeneratedSince t (kp.vchPubKey.getID E)

section Renewed

variable {handles : ℤ → Option UInt8}

/-- **A change at one index** leaves the pool renewed if the index has no record of an old key
that could be handed out. -/
theorem Renewed.change {t' : ScriptPubKeyMan} {handles' : ℤ → Option UInt8}
    (h : Renewed E s handles t) (hst : ChangedAt i t t') (hpre : i ∉ t'.setKeyPool .preSplit)
    (hsame : ∀ j, j ≠ i → handles' j = handles j)
    (hi : ∀ kp, t'.db.lookup i = some kp → ((∃ a, i ∈ t'.setKeyPool a ∧ Fits a kp.type) ∨
      ∃ asked, handles' i = some asked ∧ Fits (s.typeSet asked) kp.type) →
        s.GeneratedSince t (kp.vchPubKey.getID E)) : Renewed E s handles' t' := by
  have hsince : ∀ {k}, s.GeneratedSince t k → s.GeneratedSince t' k := by
    intro k hk
    rw [GeneratedSince, hst.wallet]
    exact hk
  refine ⟨by rw [isHDEnabled, hst.hdChain]; exact h.hd, fun k hk => (h.known k hk).congr
    (by simp [hst.wallet]) (by rw [hst.wallet]) (by simp [isHDEnabled, hst.hdChain]), ?_,
    fun a j kp hj hrec hfits => ?_, fun j asked kp hj hrec hfits => ?_⟩
  · refine eq_empty_of_forall_notMem fun j hj => ?_
    by_cases hji : j = i
    · exact hpre (hji ▸ hj)
    · rw [hst.mem j hji, h.preSplit] at hj
      simp at hj
  · by_cases hji : j = i
    · subst hji
      exact hsince (hi kp hrec (.inl ⟨a, hj, hfits⟩))
    · rw [hst.mem j hji] at hj
      rw [hst.lookup j hji] at hrec
      exact hsince (h.pooled a j kp hj hrec hfits)
  · by_cases hji : j = i
    · subst hji
      exact hsince (hi kp hrec (.inr ⟨asked, hj, hfits⟩))
    · rw [hsame j hji] at hj
      rw [hst.lookup j hji] at hrec
      exact hsince (h.held j asked kp hj hrec hfits)

theorem topUp_keeps_renewed (kpSize : ℕ) : Keeps (Renewed E s handles) (topUp E kpSize) := by
  refine topUp_keeps_new (fun t pubkey c w hnew h => ?_)
    (fun t pubkey c w type hnew _ hold h => ?_) kpSize
  · exact ⟨by simpa [isHDEnabled, hnew.isNull] using h.hd, fun k hk => hnew.known k (h.known k hk),
      h.preSplit, fun a i kp hi hrec hfits => ⟨(h.pooled a i kp hi hrec hfits).1,
        hnew.mono _ (h.pooled a i kp hi hrec hfits).2⟩,
      fun i asked kp hi hrec hfits => ⟨(h.held i asked kp hi hrec hfits).1,
        hnew.mono _ (h.held i asked kp hi hrec hfits).2⟩⟩
  · refine h.change (changedAt_pooled _ pubkey type) (by rw [pooled_preSplit, h.preSplit]; simp)
      (fun _ _ => rfl) fun kp hrec _ => ?_
    rw [lookup_pooled, if_pos rfl] at hrec
    cases hrec
    -- the key that was made is none of the old ones
    refine ⟨?_, hnew.haveKey⟩
    by_contra hhad
    exact hnew.fresh _ (hold.known _ (by simpa using hhad)) rfl

/-- **`NewKeyPool` renews the pool** if nothing is left. -/
theorem renewed_newKeyPool (hfresh : s.isHDEnabled = false → ∀ n, s.wallet.nMade ≤ n →
      s.wallet.haveKey ((E.makeNewKey n).getID E) = false)
    (hnone : NothingLeft ⟨s, handles⟩) : Renewed E s handles (exec (newKeyPool E) s).2 := by
  obtain ⟨s₀, hexec, ⟨hchain, hwallet, -, -⟩, hsets, hdb, -⟩ := exec_newKeyPool E s
  rw [hexec]
  refine topUp_keeps_renewed 0 s₀ ⟨by simp [isHDEnabled, hchain], fun k hk => ⟨?_, ?_⟩, ?_, ?_, ?_⟩
  · rw [hwallet]
    exact hk
  · intro hhd n hn heq
    have hnot := hfresh (by simpa [isHDEnabled, hchain] using hhd) n (hwallet ▸ hn)
    rw [heq, hk] at hnot
    cases hnot
  · rw [hsets]
    exact hnone.preSplit
  · intro a i kp hi
    rw [hsets] at hi
    split_ifs at hi
    · have hempty : s.setKeyPool .preSplit = ∅ := hnone.preSplit
      rw [hempty] at hi
      simp at hi
    · simp at hi
  · intro i asked kp hi hrec hfits
    exact absurd hfits (hnone.handles i asked hi kp (hdb i kp hrec))

/-- What is handed out of a renewed pool is new. -/
theorem Renewed.generatedSince (h : Renewed E s handles t)
    (hres : (exec (reserveKeyFromKeyPool E type) t).1 = .ok (some (i, kp))) :
    s.GeneratedSince t (kp.vchPubKey.getID E) := by
  rcases reserveKeyFromKeyPool_cases E type t with
    hnone | ⟨j, hj, ⟨e, -, herr⟩ | ⟨kp', hcheck, hrec, hok⟩⟩
  · rw [hnone] at hres
    cases hres
  · rw [herr] at hres
    cases hres
  · rw [hok] at hres
    cases hres
    rw [reserveSet_eq_typeSet h.preSplit] at hj
    exact h.pooled _ i kp hj hrec ((checkReserved_eq_ok.mp hcheck).2.2.1 h.preSplit)

variable (h : Renewed E s u.handles u.man)

include h

theorem Renewed.reserve (hstep : u.step E (.reserve type) = .ok v) :
    Renewed E s v.handles v.man := by
  rcases step_reserve hstep with rfl | ⟨i, hi, hst, hdb, hsets, hhandles⟩
  · exact h
  · rw [reserveSet_eq_typeSet h.preSplit] at hi
    have hpre : i ∉ v.man.setKeyPool .preSplit := by
      rw [hsets]
      intro hmem
      have hmem := (mem_erase_iff.mp hmem).2
      rw [h.preSplit] at hmem
      simp at hmem
    have hmem : ∀ a, i ∈ v.man.setKeyPool a → i ∈ u.man.setKeyPool a := by
      intro a ha
      rw [hsets] at ha
      exact (mem_erase_iff.mp ha).2
    rcases hhandles with hsame | ⟨kp, hcheck, hrec, hupdate, -⟩
    · refine h.change hst hpre (fun j _ => by rw [hsame]) fun kp hrec hof => ?_
      rw [hdb] at hrec
      rcases hof with ⟨a, ha, hfits⟩ | ⟨asked, hasked, hfits⟩
      · exact h.pooled a i kp (hmem a ha) hrec hfits
      · exact h.held i asked kp (hsame ▸ hasked) hrec hfits
    · -- the index was in the set of the type it is asked for
      refine h.change hst hpre (fun j hj => by simp [hupdate, hj]) fun kp' hrec' _ => ?_
      obtain rfl : kp = kp' := Option.some.inj (hrec.symm.trans (hdb ▸ hrec'))
      exact h.pooled _ i kp hi hrec ((checkReserved_eq_ok.mp hcheck).2.2.1 h.preSplit)

theorem Renewed.keep (hstep : u.step E (.keep i) = .ok v) : Renewed E s v.handles v.man := by
  rcases step_keep hstep with rfl | ⟨hupdate, hst, hdb, hsets⟩
  · exact h
  · exact h.change hst (by rw [hsets, h.preSplit]; simp) (fun j hj => by simp [hupdate, hj])
      (by simp [hdb])

theorem Renewed.giveBack (hstep : u.step E (.giveBack i) = .ok v) :
    Renewed E s v.handles v.man := by
  rcases step_giveBack hstep with ⟨rfl, -⟩ | ⟨asked, hi, hupdate, hst, hdb, hsets⟩
  · exact h
  · have hset : u.man.returnSet asked = s.typeSet asked :=
      (returnSet_eq_typeSet h.preSplit asked).trans (typeSet_congr h.hd asked)
    rw [hset] at hsets
    refine h.change hst ?_ (fun j hj => by simp [hupdate, hj]) fun kp hrec hof => ?_
    · rw [hsets, mem_insert_iff, h.preSplit]
      simp [(typeSet_ne_preSplit s asked).symm]
    · rw [hdb] at hrec
      obtain ⟨a, ha, hfits⟩ := hof.resolve_right (by simp [hupdate])
      rw [hsets] at ha
      rcases mem_insert_iff.mp ha with ⟨rfl, -⟩ | ha
      · exact h.held i asked kp hi hrec hfits
      · exact h.pooled a i kp ha hrec hfits

/-- **One call** leaves the pool renewed. -/
theorem Renewed.step {call : KeyPoolCall} (huse : call.IsUse) (hstep : u.step E call = .ok v) :
    Renewed E s v.handles v.man := by
  cases call with
  | topUp kpSize =>
    rw [settle_eq_ok hstep]
    exact topUp_keeps_renewed kpSize u.man h
  | reserve type => exact h.reserve hstep
  | keep i => exact h.keep hstep
  | giveBack i => exact h.giveBack hstep
  | markPreSplitKeys => cases huse
  | reload => cases huse

/-- **A renewed pool hands out new keys only.** -/
theorem Renewed.retires : u.Retires E s := by
  intro calls huse v hrun type i kp hres
  have hv : Renewed E s v.handles v.man := by
    refine Run.invariant (P := fun v => Renewed E s v.handles v.man) h
      (fun pre call post u v hl _ hstep hu => hu.step (huse call ?_) hstep) hrun
    rw [hl]
    simp
  exact hv.generatedSince hres

end Renewed

/-! ## Old keys that come back -/

/-- **An old pre-split key** is the first that is handed out. -/
theorem Accounted.preSplit_eq_empty (h : u.Accounted E)
    (hret : Retires E u.man ⟨(exec (newKeyPool E) u.man).2, u.handles⟩) :
    u.man.setKeyPool .preSplit = ∅ := by
  by_contra hne
  have hnonempty := nonempty_iff_ne_empty.mpr hne
  obtain ⟨i, hi⟩ : ∃ i, (u.man.setKeyPool .preSplit).min' hnonempty = i := ⟨_, rfl⟩
  have hmem : i ∈ u.man.setKeyPool .preSplit := hi ▸ min'_mem _ _
  obtain ⟨hle, kp, hrec, hhave, hvalid⟩ := h.record i (.inl ⟨_, hmem⟩)
  have hstand := standing_newKeyPool hrec hhave hle fun a ha => h.disjoint a _ i ha hmem
  generalize (exec (newKeyPool E) u.man).2 = t at hret hstand
  have hfirst : t.first (t.reserveSet EXTERNAL) = some i := by
    have hset : t.reserveSet EXTERNAL = .preSplit := if_neg (by rw [hstand.preSplit]; exact hne)
    rw [hset, first_eq_min' (by rw [hstand.preSplit]; exact hnonempty)]
    simp [hstand.preSplit, hi]
  have hcheck : t.checkReserved E EXTERNAL i = .ok kp :=
    checkReserved_eq_ok.mpr ⟨hstand.record, by simp [KeyWallet.getPubKey, hstand.haveKey],
      fun hempty => absurd (hstand.preSplit.symm.trans hempty) hne, hvalid,
      by rw [hstand.reserved]; exact h.free _ i hmem⟩
  have hnew := hret [] (by simp) _ rfl EXTERNAL i kp (reserve_of_first hfirst hcheck)
  rw [GeneratedSince, hhave] at hnew
  cases hnew.1

/-- **An old key that is returned** is the first of its set. -/
theorem Accounted.not_fits (h : u.Accounted E) (hempty : u.man.setKeyPool .preSplit = ∅)
    (hret : Retires E u.man ⟨(exec (newKeyPool E) u.man).2, u.handles⟩) {asked : UInt8}
    (hi : u.handles i = some asked) {kp : CKeyPool} (hrec : u.man.db.lookup i = some kp) :
    ¬ Fits (u.man.typeSet asked) kp.type := by
  intro hfits
  obtain ⟨hnot, hsome⟩ := h.held i asked hi
  obtain ⟨hle, kp', hrec', hhave, hvalid⟩ := h.record i (.inr (by simp [hi]))
  obtain rfl : kp = kp' := Option.some.inj (hrec.symm.trans hrec')
  have hstand := standing_newKeyPool hrec hhave hle fun a ha => absurd ha (hnot a)
  generalize (exec (newKeyPool E) u.man).2 = t at hret hstand
  have hpre : t.setKeyPool .preSplit = ∅ := hstand.preSplit.trans hempty
  have htype : t.returnSet asked = u.man.typeSet asked :=
    (returnSet_eq_typeSet hpre asked).trans (typeSet_congr hstand.hd asked)
  obtain ⟨id, hid⟩ : ∃ id, t.m_index_to_reserved_key i = some id := by
    rw [hstand.reserved]
    exact Option.isSome_iff_exists.mp hsome
  -- the state after the key is returned
  let v : ScriptPubKeyMan :=
    ((t.insert (u.man.typeSet asked) i).setPoolKey id (some i)).setReserved i none
  have hstep : step E ⟨t, u.handles⟩ (.giveBack i) = .ok ⟨v, Function.update u.handles i none⟩ := by
    simp [step, hi, exec, returnDestination, hid, settle, htype, v]
  have hvpre : v.setKeyPool .preSplit = ∅ := by
    simpa [v, (typeSet_ne_preSplit u.man asked).symm] using hpre
  have hset : v.reserveSet asked = u.man.typeSet asked :=
    (reserveSet_eq_typeSet hvpre asked).trans (typeSet_congr hstand.hd asked)
  have hmem : i ∈ v.setKeyPool (u.man.typeSet asked) := by simp [v]
  have hfirst : v.first (v.reserveSet asked) = some i := by
    rw [hset, first_eq_min' ⟨i, hmem⟩]
    refine congrArg some (le_antisymm (min'_le _ _ hmem) (le_min' _ _ _ ?_))
    intro j hj
    rcases mem_insert_iff.mp hj with ⟨-, rfl⟩ | hj
    · exact le_rfl
    · exact (hstand.newer _ (typeSet_ne_preSplit u.man asked) j hj).le
  have hcheck : v.checkReserved E asked i = .ok kp := by
    refine checkReserved_eq_ok.mpr ⟨hstand.record,
      by simp [KeyWallet.getPubKey, v, hstand.haveKey], fun _ => ?_, hvalid, by simp [v]⟩
    rw [show v.typeSet asked = u.man.typeSet asked from typeSet_congr hstand.hd asked]
    exact hfits
  have hnew := hret [.giveBack i] (by simp [KeyPoolCall.IsUse]) ⟨v, _⟩ (by
    rw [Run.after, List.foldlM_cons, hstep]
    rfl) asked i kp (reserve_of_first hfirst hcheck)
  rw [GeneratedSince, hhave] at hnew
  cases hnew.1

end KeyPoolUse

/-- **When `NewKeyPool` retires the old keys.** If it returns `true`, no later reservations,
returns and top-ups hand out a key that the wallet had before, provided there were no pre-split
keys and no key was reserved under a record of the type it was asked for. If the records of the
pool are accounted for, that is needed. -/
theorem newKeyPool_retires_iff (E : KeyPoolEnv) {u : KeyPoolUse} {t : ScriptPubKeyMan}
    (hfresh : u.man.isHDEnabled = false → ∀ n, u.man.wallet.nMade ≤ n →
      u.man.wallet.haveKey ((E.makeNewKey n).getID E.toKeyOps) = false)
    (hnew : exec (ScriptPubKeyMan.newKeyPool E) u.man = (.ok true, t)) :
    (u.NothingLeft → KeyPoolUse.Retires E u.man ⟨t, u.handles⟩) ∧
      (u.Accounted E → (KeyPoolUse.Retires E u.man ⟨t, u.handles⟩ ↔ u.NothingLeft)) := by
  obtain rfl : (exec (newKeyPool E) u.man).2 = t := by rw [hnew]
  have henough : u.NothingLeft →
      KeyPoolUse.Retires E u.man ⟨(exec (newKeyPool E) u.man).2, u.handles⟩ :=
    fun hnone => (KeyPoolUse.renewed_newKeyPool hfresh hnone).retires
  refine ⟨henough, fun hacc => ⟨fun hret => ?_, henough⟩⟩
  have hempty := hacc.preSplit_eq_empty hret
  exact ⟨hempty, fun i asked hi kp hrec => hacc.not_fits hempty hret hi hrec⟩

/-! ## A pool with one old key -/

namespace KeyPoolSample

/-- The pool with its key in one of the sets. -/
def oldPool (set : KeyPoolSet) : ScriptPubKeyMan :=
  { man with setKeyPool := fun a => if a = set then {1} else ∅ }

theorem newKeyPool_oldPool (set : KeyPoolSet) (h : set = .external ∨ set = .preSplit) :
    exec (newKeyPool env) (oldPool set) =
      (.ok true, (exec (newKeyPool env) (oldPool set)).2) := by
  apply exec_eq_of_fst
  rcases h with rfl | rfl <;> decide +kernel

theorem mem_oldPool_iff {set a : KeyPoolSet} {i : ℤ} :
    i ∈ (oldPool set).setKeyPool a ↔ a = set ∧ i = 1 := by
  by_cases ha : a = set
  · simp [oldPool, ha]
  · simp [oldPool, ha]

theorem accounted_oldPool (set : KeyPoolSet) : (KeyPoolUse.start (oldPool set)).Accounted env where
  disjoint a b i ha hb := (mem_oldPool_iff.mp ha).1.trans (mem_oldPool_iff.mp hb).1.symm
  free a i hi := rfl
  held i asked hi := by cases hi
  record i hi := by
    obtain ⟨a, hi⟩ := hi.resolve_right (by simp [KeyPoolUse.start])
    obtain ⟨-, rfl⟩ := mem_oldPool_iff.mp hi
    exact ⟨le_rfl, _, AList.lookup_insert .., show wallet.haveKey keyID = true by decide, by decide⟩

end KeyPoolSample

open KeyPoolSample in
/-- The old key is an external one, and nobody has reserved a key. -/
theorem newKeyPool_retires_external :
    exec (ScriptPubKeyMan.newKeyPool env) (oldPool .external) =
        (.ok true, (exec (ScriptPubKeyMan.newKeyPool env) (oldPool .external)).2) ∧
      (KeyPoolUse.start (oldPool .external)).Accounted env ∧
      KeyPoolUse.Retires env (oldPool .external)
        (.start (exec (ScriptPubKeyMan.newKeyPool env) (oldPool .external)).2) := by
  have hok := newKeyPool_oldPool .external (.inl rfl)
  refine ⟨hok, accounted_oldPool _,
    ((newKeyPool_retires_iff env (u := .start (oldPool .external)) (fun hnot => by cases hnot)
      hok).2 (accounted_oldPool _)).mpr ⟨rfl, fun i asked hi => by cases hi⟩⟩

open KeyPoolSample in
/-- **An old key can be handed out after `NewKeyPool`**: a pre-split one. -/
theorem not_newKeyPool_retires :
    ¬ ∀ (E : KeyPoolEnv) (u : KeyPoolUse) (t : ScriptPubKeyMan), u.Accounted E →
      (u.man.isHDEnabled = false → ∀ n, u.man.wallet.nMade ≤ n →
        u.man.wallet.haveKey ((E.makeNewKey n).getID E.toKeyOps) = false) →
      exec (ScriptPubKeyMan.newKeyPool E) u.man = (.ok true, t) →
        KeyPoolUse.Retires E u.man ⟨t, u.handles⟩ := by
  intro h
  have hret := h env (.start (oldPool .preSplit)) _ (accounted_oldPool _)
    (fun hnot => by cases hnot) (newKeyPool_oldPool .preSplit (.inr rfl))
  have hempty := (accounted_oldPool .preSplit).preSplit_eq_empty hret
  exact absurd hempty (by decide)

end Passion
