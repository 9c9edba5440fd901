import Passion.Common.Layered
import Passion.Wallet.NoteWitnesses

/-!
# Merging the notes of a transaction

`UpdatedNoteData` of `sapling/saplingscriptpubkeyman.cpp`. `AddToWallet` calls it when a transaction
of the wallet is detected once more: the notes found this time replace those that are stored, and
the cached witnesses of the stored ones are carried over. The stored notes are looked up among the
new ones by an access that throws; and nothing else is carried over.
-/

namespace Passion

open AList

/-- `SaplingNoteData`, all of its fields. -/
structure CachedNote where
  witnesses : List SaplingWitness
  ivk : Option Uint256
  amount : Option ℤ
  /-- Diversifier and transmission key. -/
  address : Option (Bytes × Uint256)
  memo : Option Bytes
  witnessHeight : ℤ
  nullifier : Option Uint256
  deriving DecidableEq

/-- `mapSaplingNoteData_t`. -/
abbrev MapSaplingNoteData := AList fun _ : SaplingOutPoint => CachedNote

namespace CachedNote

/-- `operator==`: the witnesses are not compared. -/
def sameNote (a b : CachedNote) : Bool :=
  a.ivk = b.ivk ∧ a.nullifier = b.nullifier ∧ a.witnessHeight = b.witnessHeight ∧
    a.amount = b.amount ∧ a.address = b.address ∧ a.memo = b.memo

/-- What the loop writes into a note that was detected again: the witnesses of the stored one,
if it has some, and its witness height. -/
def carryOver (t nd : CachedNote) : CachedNote :=
  { t with
    witnesses := if 0 < nd.witnesses.length then nd.witnesses else t.witnesses
    witnessHeight := nd.witnessHeight }

end CachedNote

/-- A note keeps the cached witnesses, the witness height and the nullifier it had. -/
structure CachedNote.Keeps (old new : CachedNote) : Prop where
  witnesses : old.witnesses ≠ [] → new.witnesses = old.witnesses
  witnessHeight : old.witnessHeight ≠ -1 → new.witnessHeight = old.witnessHeight
  nullifier : ∀ nf, old.nullifier = some nf → new.nullifier = some nf

namespace MapSaplingNoteData

/-- `operator==` of the two maps. -/
def sameMap (a b : MapSaplingNoteData) : Bool :=
  (a.keys ++ b.keys).all fun op =>
    match a.lookup op, b.lookup op with
    | some x, some y => x.sameNote y
    | _, _ => false

/-- The body of the loop of `UpdatedNoteData`. The first access is guarded by `count`, the
second is not. -/
def keepStored (tmp : MapSaplingNoteData) (op : SaplingOutPoint) (nd : CachedNote) :
    Result MapSaplingNoteData :=
  match tmp.lookup op with
  | none => .error (.exception "map::at")
  | some t => .ok (tmp.insert op (t.carryOver nd))

/-- `UpdatedNoteData`: whether the stored notes were changed, and the notes stored then. -/
def updatedNoteData (wtxIn wtx : MapSaplingNoteData) : Result (Bool × MapSaplingNoteData) :=
  let unchangedSaplingFlag := decide (wtxIn.entries = []) || wtxIn.sameMap wtx
  if !unchangedSaplingFlag then
    (wtx.entries.foldlM (fun tmp nd => keepStored tmp nd.1 nd.2) wtxIn).map fun tmp => (true, tmp)
  else .ok (false, wtx)

/-! ## What the merge makes of a note -/

variable {wtxIn wtx notes : MapSaplingNoteData}

/-- **The loop** does not throw where every stored note was detected again. -/
theorem exists_keepStored (h : ∀ op nd, wtx.lookup op = some nd → (wtxIn.lookup op).isSome) :
    ∃ notes, wtx.entries.foldlM (fun tmp nd => keepStored tmp nd.1 nd.2) wtxIn = .ok notes ∧
      ∀ op, notes.lookup op = (wtx.lookup op).elim (wtxIn.lookup op) fun nd =>
        (wtxIn.lookup op).map (·.carryOver nd) := by
  refine Layered.look_foldlM (fun (m : MapSaplingNoteData) op => m.lookup op)
    (F := fun _ _ t => t.isSome = true) ?_
    wtx.nodupKeys wtxIn h
  intro m op nd hsome
  obtain ⟨t, ht⟩ := Option.isSome_iff_exists.mp hsome
  refine ⟨m.insert op (t.carryOver nd), by rw [keepStored, ht], fun op' => ?_⟩
  by_cases hop : op' = op
  · subst hop
    simp [ht]
  · rw [if_neg hop, lookup_insert_ne hop]

/-- Where it does not throw, every stored note was detected again. -/
theorem isSome_of_keepStored
    (h : wtx.entries.foldlM (fun tmp nd => keepStored tmp nd.1 nd.2) wtxIn = .ok notes)
    {op : SaplingOutPoint} {nd : CachedNote} (hnd : wtx.lookup op = some nd) :
    (wtxIn.lookup op).isSome = true := by
  refine Layered.fits_of_foldlM (fun m op => m.lookup op)
    (F := fun _ _ t => t.isSome = true) ?_ wtx.nodupKeys h hnd
  intro m op nd m' hm'
  unfold keepStored at hm'
  cases ht : m.lookup op with
  | none => rw [ht] at hm'; cases hm'
  | some t =>
    rw [ht] at hm'
    cases hm'
    exact ⟨rfl, fun op' hop => lookup_insert_ne hop⟩

/-! ## What is lost -/

/-- **The merge loses nothing**: it returns, every stored note is still there with what it had,
and so is every note that was detected now. -/
def LosesNothing (wtxIn wtx : MapSaplingNoteData) : Prop :=
  ∃ changed notes, updatedNoteData wtxIn wtx = .ok (changed, notes) ∧
    (∀ op nd, wtx.lookup op = some nd → ∃ nd', notes.lookup op = some nd' ∧ nd.Keeps nd') ∧
    ∀ op, (wtxIn.lookup op).isSome → (notes.lookup op).isSome

/-- **Nothing is forgotten**: every stored note was detected again, with its nullifier if that
was known. -/
def Recalled (wtxIn wtx : MapSaplingNoteData) : Prop :=
  ∀ op nd, wtx.lookup op = some nd → ∃ nd', wtxIn.lookup op = some nd' ∧
    ∀ nf, nd.nullifier = some nf → nd'.nullifier = some nf

theorem CachedNote.keeps_carryOver {t nd : CachedNote}
    (h : ∀ nf, nd.nullifier = some nf → t.nullifier = some nf) : nd.Keeps (t.carryOver nd) where
  witnesses := fun hne => if_pos (List.length_pos_iff.mpr hne)
  witnessHeight := fun _ => rfl
  nullifier := h

/-- Where the maps are taken to be equal, they have the same notes. -/
theorem isSome_of_sameMap (h : wtxIn.sameMap wtx = true) {op : SaplingOutPoint}
    (hop : (wtxIn.lookup op).isSome) : (wtx.lookup op).isSome := by
  have hmem := lookup_isSome.mp hop
  have h := List.all_eq_true.mp h op (List.mem_append_left _ (mem_keys.mpr hmem))
  cases hy : wtx.lookup op with
  | some y => rfl
  | none => simp [hy] at h

/-- **Merging note data** loses nothing if and only if nothing is merged, because no note was
detected or the notes are taken to be unchanged, or every stored note was detected again with
the nullifier it has. -/
theorem losesNothing_iff (wtxIn wtx : MapSaplingNoteData) :
    LosesNothing wtxIn wtx ↔
      wtxIn.entries = [] ∨ wtxIn.sameMap wtx = true ∨ Recalled wtxIn wtx := by
  by_cases hsame : wtxIn.entries = [] ∨ wtxIn.sameMap wtx = true
  · -- the stored notes stay as they are
    have hflag : (decide (wtxIn.entries = []) || wtxIn.sameMap wtx) = true := by simpa using hsame
    have hrun : updatedNoteData wtxIn wtx = .ok (false, wtx) := by simp [updatedNoteData, hflag]
    refine ⟨fun _ => hsame.elim .inl fun h => .inr (.inl h), fun _ => ⟨false, wtx, hrun, ?_, ?_⟩⟩
    · exact fun op nd hnd => ⟨nd, hnd, fun _ => rfl, fun _ => rfl, fun _ h => h⟩
    · intro op hop
      rcases hsame with hnil | hsame
      · rw [lookup, hnil] at hop
        cases hop
      · exact isSome_of_sameMap hsame hop
  · obtain ⟨hne, hdiff⟩ := not_or.mp hsame
    have hrun : updatedNoteData wtxIn wtx = (wtx.entries.foldlM
        (fun tmp nd => keepStored tmp nd.1 nd.2) wtxIn).map fun tmp => (true, tmp) := by
      simp [updatedNoteData, hne, hdiff]
    rw [or_iff_right hne, or_iff_right hdiff]
    constructor
    · rintro ⟨changed, notes, hok, hkeep, -⟩
      rw [hrun] at hok
      obtain ⟨notes', hloop, hpair⟩ := Except.map_eq_ok.mp hok
      cases hpair
      intro op nd hnd
      have hall : ∀ op nd, wtx.lookup op = some nd → (wtxIn.lookup op).isSome = true :=
        fun _ _ => isSome_of_keepStored hloop
      obtain ⟨notes'', hloop', hlook⟩ := exists_keepStored hall
      obtain rfl := Except.ok.inj (hloop.symm.trans hloop')
      obtain ⟨t, ht⟩ := Option.isSome_iff_exists.mp (hall op nd hnd)
      obtain ⟨nd', hnd', hkeeps⟩ := hkeep op nd hnd
      rw [hlook, hnd, ht] at hnd'
      cases hnd'
      exact ⟨t, ht, hkeeps.nullifier⟩
    · intro h
      have hall : ∀ op nd, wtx.lookup op = some nd → (wtxIn.lookup op).isSome = true := by
        intro op nd hnd
        obtain ⟨t, ht, -⟩ := h op nd hnd
        rw [ht]
        rfl
      obtain ⟨notes, hloop, hlook⟩ := exists_keepStored hall
      refine ⟨true, notes, by rw [hrun, hloop]; rfl, fun op nd hnd => ?_, fun op hop => ?_⟩
      · obtain ⟨t, ht, hnf⟩ := h op nd hnd
        exact ⟨t.carryOver nd, by rw [hlook, hnd, ht]; rfl, CachedNote.keeps_carryOver hnf⟩
      · rw [hlook]
        cases wtx.lookup op with
        | none => exact hop
        | some nd => simpa using hop

/-- One stored note, whose nullifier may be known. -/
def sampleNotes (n : ℕ) (nullifier : Option Uint256) : MapSaplingNoteData :=
  AList.insert ⟨BaseUint.ofNat 1, n⟩
    ⟨[], some (BaseUint.ofNat 9), some 5, none, none, 7, nullifier⟩ ∅

/-- **The merge can lose notes and nullifiers**: it throws if a stored note was not detected
again, and it forgets the nullifier of a note that was detected while the wallet was locked. -/
theorem not_losesNothing :
    (¬ ∀ wtxIn wtx, LosesNothing wtxIn wtx) ∧
      ((updatedNoteData (sampleNotes 0 none) (sampleNotes 0 (some (BaseUint.ofNat 3)))).map
        fun r => r.2.entries) = .ok (sampleNotes 0 none).entries := by
  refine ⟨fun hall => ?_, by decide +kernel⟩
  obtain ⟨changed, notes, hok, -⟩ := hall (sampleNotes 1 none) (sampleNotes 0 none)
  cases hok

end MapSaplingNoteData

end Passion
