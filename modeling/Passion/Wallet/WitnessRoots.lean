import Passion.Wallet.NoteWitnesses

/-!
# The witnesses of the notes are those of the chain

The list of witnesses of a note has, from the front, its witnesses in the chain, in the chain
without the last block, and so on. Connecting a block puts a copy of the front witness before the
others and appends the commitments of the block to it; disconnecting a block takes it away.
-/

namespace Passion

open List Except BaseUint SaplingNoteData NoteCache

/-- **A witness of the note** in a list of outputs. -/
def WitnessIn (E : Env) (outputs : List (SaplingOutPoint × Uint256)) (op : SaplingOutPoint)
    (w : SaplingWitness) : Prop :=
  ∃ pre cm post, outputs = pre ++ (op, cm) :: post ∧
    w.Holds E (pre.map Prod.snd ++ [cm]) (post.map Prod.snd)

/-- **The witnesses follow the chain**: the front one is in the chain, and the others are in the
chain without its last block. -/
inductive WitnessesAlong (E : Env) (op : SaplingOutPoint) :
    List ChainBlock → List SaplingWitness → Prop
  | nil (chain : List ChainBlock) : WitnessesAlong E op chain []
  | cons {chain : List ChainBlock} {b : ChainBlock} {w : SaplingWitness}
    {ws : List SaplingWitness} (h : WitnessesAlong E op chain ws)
    (hw : WitnessIn E (chainOutputs E.toHashing (chain ++ [b])) op w) :
    WitnessesAlong E op (chain ++ [b]) (w :: ws)

variable {E : Env} {params : CChainParams} {chain : List ChainBlock} {b : ChainBlock}

section

variable {op : SaplingOutPoint} {w w' : SaplingWitness} {ws : List SaplingWitness}
  {outputs : List (SaplingOutPoint × Uint256)} {output : SaplingOutPoint × Uint256}

theorem chainOutputs_concat {H : Hashing} :
    chainOutputs H (chain ++ [b]) = chainOutputs H chain ++ shieldedOutputs H b.vtx := by
  simp [chainOutputs]

theorem WitnessIn.append (h : WitnessIn E outputs op w) (hw : w.append E output.2 = .ok w') :
    WitnessIn E (outputs ++ [output]) op w' := by
  obtain ⟨pre, cm, post, rfl, hholds⟩ := h
  exact ⟨pre, cm, post ++ [output], by simp, by simpa using hholds.append hw⟩

theorem witnessIn_concat {tree : SaplingMerkleTree} {cm : Uint256}
    (h : tree.Holds E ((outputs ++ [(op, cm)]).map Prod.snd))
    (hlen : FitsTree (outputs ++ [(op, cm)])) :
    WitnessIn E (outputs ++ [(op, cm)]) op tree.witness := by
  refine ⟨outputs, cm, [], rfl, SaplingWitness.holds_witness ?_ (by simp) (by simpa using hlen)⟩
  simpa using h

/-- The root of every witness in the outputs. -/
theorem WitnessIn.root_eq (h : WitnessIn E outputs op w) :
    w.root E = E.nodeHash.merkle SAPLING_INCREMENTAL_MERKLE_TREE_DEPTH
      (outputs.map Prod.snd) := by
  obtain ⟨pre, cm, post, rfl, hholds⟩ := h
  rw [hholds.root_eq]
  simp

theorem WitnessesAlong.head (h : WitnessesAlong E op chain (w :: ws)) :
    WitnessIn E (chainOutputs E chain) op w := by
  cases h with
  | cons _ hw => exact hw

/-- The last block is disconnected. -/
theorem WitnessesAlong.pop (h : WitnessesAlong E op (chain ++ [b]) ws) :
    WitnessesAlong E op chain ws.tail := by
  generalize hc : chain ++ [b] = full at h
  cases h with
  | nil => exact .nil chain
  | cons h _ =>
    obtain ⟨rfl, -⟩ := append_inj' hc rfl
    exact h

/-- The oldest witness is dropped. -/
theorem WitnessesAlong.dropLast (h : WitnessesAlong E op chain ws) :
    WitnessesAlong E op chain ws.dropLast := by
  induction h with
  | nil chain => exact .nil chain
  | @cons chain b w ws h hw ih =>
    cases ws with
    | nil => exact .nil _
    | cons w' ws => exact .cons ih hw

/-- A chain without shielded outputs has no witnesses. -/
theorem WitnessesAlong.eq_nil (h : WitnessesAlong E op chain ws)
    (hout : chainOutputs E chain = []) : ws = [] := by
  cases ws with
  | nil => rfl
  | cons w ws =>
    obtain ⟨pre, cm, post, heq, -⟩ := h.head
    rw [hout] at heq
    simp at heq

end

namespace SaplingNoteData

variable {size : ℤ} {nd : SaplingNoteData}
  {done : List (SaplingOutPoint × Uint256)} {output : SaplingOutPoint × Uint256}

/-- **A note whose witnesses are right**: they follow the chain, up to the tip. -/
structure Witnessed (E : Env) (chain : List ChainBlock) (nd : SaplingNoteData) : Prop where
  tracks : WitnessesAlong E nd.op chain nd.witnesses
  mine : nd.witnesses ≠ [] → nd.isMyNote = true ∧ nd.witnessHeight = chain.length - 1

theorem Witnessed.of_nil (h : nd.witnesses = []) : nd.Witnessed E chain :=
  ⟨h ▸ .nil chain, (absurd h)⟩

/-- **The note while a block is processed**, `done` being the outputs that were: a front witness
has followed them, and the other witnesses are those before the block. -/
structure Mid (E : Env) (chain : List ChainBlock) (done : List (SaplingOutPoint × Uint256))
    (nd : SaplingNoteData) : Prop where
  front : ∀ w ws, nd.witnesses = w :: ws →
    WitnessIn E (chainOutputs E chain ++ done) nd.op w ∧ WitnessesAlong E nd.op chain ws
  mine : nd.witnesses ≠ [] → nd.isMyNote = true ∧ nd.witnessHeight < chain.length

theorem copyPreviousWitnesses_mid (h : nd.Witnessed E chain) :
    (copyPreviousWitnesses chain.length size nd).Ensures (Mid E chain []) := by
  unfold copyPreviousWitnesses
  split
  · next hmine =>
    simp only [Bool.and_eq_true, decide_eq_true_eq] at hmine
    refine (meets_true _).bind fun _ _ => ?_
    split
    · refine ⟨fun w ws hw => ?_, fun _ => hmine⟩
      have htracks := h.tracks
      cases hold : nd.witnesses with
      | nil =>
        simp [hold] at hw
      | cons w' ws' =>
        rw [hold] at htracks
        simp only [hold] at hw
        split at hw
        · obtain ⟨rfl, rfl⟩ := cons.inj hw
          exact ⟨by simpa using htracks.head, htracks.dropLast⟩
        · obtain ⟨rfl, rfl⟩ := cons.inj hw
          exact ⟨by simpa using htracks.head, htracks⟩
    · trivial
  · next hnot =>
    have hnil : nd.witnesses = [] := by
      by_contra hne
      obtain ⟨hmine, hheight⟩ := h.mine hne
      apply hnot
      simp [hmine, hheight]
    exact ⟨fun w ws hw => by simp [hnil] at hw, (absurd hnil)⟩

theorem appendNoteCommitment_mid (h : nd.Mid E chain done) :
    (appendNoteCommitment E chain.length size output.2 nd).Ensures (Mid E chain (done ++ [output])) := by
  unfold appendNoteCommitment
  split
  · next hnil => exact ⟨fun w ws hw => by simp [hnil] at hw, (absurd hnil)⟩
  · next w ws hw =>
    obtain ⟨hmine, hheight⟩ := h.mine (by simp [hw])
    obtain ⟨hfront, htracks⟩ := h.front w ws hw
    rw [if_pos (by simp [hmine, hheight])]
    refine (meets_true _).bind fun _ _ => ?_
    cases happ : w.append E output.2 with
    | error e => trivial
    | ok w' =>
      refine ⟨fun w'' ws' hw' => ?_, fun _ => ⟨hmine, hheight⟩⟩
      obtain ⟨rfl, rfl⟩ := cons.inj hw'
      rw [← append_assoc]
      exact ⟨hfront.append happ, htracks⟩

theorem witnessNoteIfMine_mid {tree : SaplingMerkleTree} (h : nd.Mid E chain (done ++ [output]))
    (htree : tree.Holds E ((chainOutputs E chain ++ (done ++ [output])).map Prod.snd))
    (hlen : FitsTree (chainOutputs E chain ++ (done ++ [output]))) :
    (witnessNoteIfMine chain.length size output.1 tree.witness nd).Ensures
      (Mid E chain (done ++ [output])) := by
  unfold witnessNoteIfMine
  split
  · next hkey =>
    simp only [Bool.and_eq_true, decide_eq_true_eq] at hkey
    obtain ⟨⟨hop, hmine⟩, -⟩ := hkey
    refine (meets_true _).map fun _ _ => ?_
    refine ⟨fun w ws hw => ?_, fun _ => ⟨hmine, by simp⟩⟩
    obtain ⟨rfl, rfl⟩ := cons.inj hw
    rw [← append_assoc] at htree hlen ⊢
    simp only [hop]
    exact ⟨witnessIn_concat htree hlen, .nil chain⟩
  · exact h

theorem updateWitnessHeights_witnessed
    (h : nd.Mid E chain (shieldedOutputs E b.vtx)) :
    (updateWitnessHeights chain.length size nd).Ensures (Witnessed E (chain ++ [b])) := by
  have htracks : WitnessesAlong E nd.op (chain ++ [b]) nd.witnesses := by
    cases hw : nd.witnesses with
    | nil => exact .nil _
    | cons w ws =>
      obtain ⟨hfront, hrest⟩ := h.front w ws hw
      exact .cons hrest (by rwa [chainOutputs_concat])
  unfold updateWitnessHeights
  split
  · next hmine =>
    simp only [Bool.and_eq_true] at hmine
    refine (meets_true _).map fun _ _ => ?_
    exact ⟨htracks, fun _ => ⟨hmine.1, by simp⟩⟩
  · next hnot =>
    refine ⟨htracks, fun hne => ?_⟩
    obtain ⟨hmine, hheight⟩ := h.mine hne
    simp [hmine, hheight] at hnot

theorem decrementNoteWitnesses_witnessed (h : nd.Witnessed E (chain ++ [b])) :
    (decrementNoteWitnesses chain.length size nd).Ensures (Witnessed E chain) := by
  have hpop : (popWitness chain.length size nd).Ensures (Witnessed E chain) := by
    refine (meets_true _).bind fun _ _ => ?_
    split
    · refine ⟨h.tracks.pop, fun hne => ⟨(h.mine ?_).1, rfl⟩⟩
      rintro hnil
      simp [hnil] at hne
    · trivial
  have hnil : nd.isMyNote = false ∨ ¬ nd.witnessHeight ≤ chain.length → nd.Witnessed E chain := by
    intro hother
    have hnil : nd.witnesses = [] := by
      by_contra hne
      obtain ⟨hmine, hheight⟩ := h.mine hne
      rcases hother with hnot | habove
      · simp [hmine] at hnot
      · simp [hheight] at habove
    exact .of_nil hnil
  unfold decrementNoteWitnesses
  split
  · refine Except.Meets.bind (P := Witnessed E chain) ?_ fun nd' hnd' => ?_
    · split
      · exact hpop
      · next habove => exact hnil (.inr habove)
    · split
      · trivial
      · exact hnd'
  · next hnot => exact hnil (.inl (by simpa using hnot))

end SaplingNoteData

namespace NoteCache

variable {cache : NoteCache}

/-- **A block is connected.** -/
theorem incrementNoteWitnesses_witnessed {tree : SaplingMerkleTree}
    (h : ∀ nd ∈ cache.notes, nd.Witnessed E chain)
    (htree : tree.Holds E ((chainOutputs E chain).map Prod.snd))
    (hlen : FitsTree (chainOutputs E chain)) :
    (cache.incrementNoteWitnesses E chain.length b.vtx tree).Ensures fun cache' =>
      FitsTree (chainOutputs E (chain ++ [b])) ∧
        ∀ nd ∈ cache'.notes, nd.Witnessed E (chain ++ [b]) := by
  refine (Except.Meets.mapM fun nd hnd =>
    copyPreviousWitnesses_mid (h nd hnd)).bind fun notes hnotes => ?_
  -- The tree and the front witnesses have followed the outputs of the block so far.
  refine (Except.Meets.foldlM (fun done s =>
    (s.1.Holds E ((chainOutputs E chain ++ done).map Prod.snd) ∧
      FitsTree (chainOutputs E chain ++ done)) ∧
      ∀ nd ∈ s.2, nd.Mid E chain done) ⟨by simpa using ⟨htree, hlen⟩, hnotes⟩ ?_).bind ?_
  · rintro done output s - ⟨⟨hholds, hlen⟩, hmid⟩
    unfold incrementOutput
    cases happ : s.1.append E output.2 with
    | error e => trivial
    | ok tree' =>
      have hnext := hholds.append (by simpa using hlen) happ
      have hnext' : tree'.Holds E ((chainOutputs E chain ++ (done ++ [output])).map Prod.snd) ∧
          FitsTree (chainOutputs E chain ++ (done ++ [output])) := by
        simpa using hnext
      refine (Except.Meets.mapM fun nd hnd =>
        appendNoteCommitment_mid (hmid nd hnd)).bind fun notes' hnotes' => ?_
      exact (Except.Meets.mapM fun nd hnd =>
        witnessNoteIfMine_mid (hnotes' nd hnd) hnext'.1 hnext'.2).map
          fun notes'' hnotes'' => ⟨hnext', hnotes''⟩
  · rintro s ⟨⟨-, hlen⟩, hmid⟩
    refine (Except.Meets.mapM fun nd hnd =>
      updateWitnessHeights_witnessed (hmid nd hnd)).map fun notes' hnotes' => ⟨?_, hnotes'⟩
    rwa [chainOutputs_concat]

/-- **A block is disconnected.** -/
theorem decrementNoteWitnesses_witnessed (h : ∀ nd ∈ cache.notes, nd.Witnessed E (chain ++ [b])) :
    (cache.decrementNoteWitnesses params chain.length).Ensures fun cache' =>
      ∀ nd ∈ cache'.notes, nd.Witnessed E chain := by
  refine (Except.Meets.mapM fun nd hnd =>
    SaplingNoteData.decrementNoteWitnesses_witnessed (h nd hnd)).bind fun notes hnotes => ?_
  simp only
  split
  · split <;> trivial
  · exact hnotes

/-- **All witnesses have the root of the tree**, so `GetSaplingNoteWitnesses` returns. -/
theorem exists_getSaplingNoteWitnesses (h : ∀ nd ∈ cache.notes, nd.Witnessed E chain)
    (ops : List SaplingOutPoint) : ∃ r, cache.getSaplingNoteWitnesses E ops = .ok r := by
  obtain ⟨root, hroot⟩ : ∃ root, ∀ nd ∈ cache.notes, ∀ w, nd.witnesses.head? = some w →
      w.root E = root := by
    refine ⟨E.nodeHash.merkle SAPLING_INCREMENTAL_MERKLE_TREE_DEPTH
      ((chainOutputs E chain).map Prod.snd), fun nd hnd w hw => ?_⟩
    obtain ⟨ws, hws⟩ := head?_eq_some_iff.mp hw
    have htracks := (h nd hnd).tracks
    rw [hws] at htracks
    exact htracks.head.root_eq
  have hyields : (cache.getSaplingNoteWitnesses E ops).Yields fun r => ∀ rt ∈ r.2, rt = root := by
    refine Except.Meets.foldlM (fun _ (r : List (Option SaplingWitness) × Option Uint256) =>
      ∀ rt ∈ r.2, rt = root) (by simp) ?_
    intro _ op s _ hs
    unfold getSaplingNoteWitness
    split
    · exact hs
    · next w hw =>
      obtain ⟨nd, hfind, hhead⟩ := Option.bind_eq_some_iff.mp hw
      have hw := hroot nd (mem_of_find?_eq_some hfind) w hhead
      split
      · rintro rt ⟨⟩
        exact hw
      · next rt hrt =>
        rw [if_pos ((hs rt hrt).trans hw.symm)]
        rintro rt' ⟨⟩
        exact hs rt hrt
  obtain ⟨r, hr, -⟩ := yields_iff.mp hyields
  exact ⟨r, hr⟩

end NoteCache

namespace NoteView

variable {s t : NoteView}

/-- **A wallet whose witnesses are right**, at the tip of a chain in which no outpoint occurs
twice, with no shielded outputs before the upgrade and no more of them than the tree has
places. -/
structure Witnessed (E : Env) (params : CChainParams) (s : NoteView) : Prop where
  outpoints : ((chainOutputs E.toHashing s.chain).map Prod.fst).Nodup
  quiet : ∀ pre, pre <+: s.chain →
    params.consensus.networkUpgradeActive (pre.length - 1) .upgradeV5_0 = false →
    chainOutputs E.toHashing pre = []
  bounded : (chainOutputs E.toHashing s.chain).length ≤ 2 ^ SAPLING_INCREMENTAL_MERKLE_TREE_DEPTH
  notes : ∀ nd ∈ s.cache.notes, nd.Witnessed E s.chain

/-- **A call follows the chain**: the outpoints of a connected block are new, it has shielded
outputs only after the upgrade, and the first block is not disconnected. -/
def Fits (E : Env) (params : CChainParams) (s : NoteView) : NoteCall → Prop
  | .connected b =>
    ((chainOutputs E.toHashing (s.chain ++ [b])).map Prod.fst).Nodup ∧
      (params.consensus.networkUpgradeActive s.chain.length .upgradeV5_0 = false →
        shieldedOutputs E.toHashing b.vtx = [])
  | .disconnected => 2 ≤ s.chain.length
  | _ => True

/-- The witness has the root of the tree at the tip, and is of the commitment. -/
def RightRoot (E : Env) (s : NoteView) (w : SaplingWitness) (cm : Uint256) : Prop :=
  (∃ tree, SaplingMerkleTree.empty.appendAll E
      ((chainOutputs E.toHashing s.chain).map Prod.snd) = .ok tree ∧ w.root E = tree.root E) ∧
    w.element = .ok cm

/-- **The witness is right** for a note with the commitment at an index of the chain: it has also
the index as its position. -/
def RightWitness (E : Env) (s : NoteView) (w : SaplingWitness) (i : ℕ) (cm : Uint256) : Prop :=
  s.RightRoot E w cm ∧ w.position.toNat = i

section

variable (h : s.Witnessed E params)

include h

theorem Witnessed.connected {b : ChainBlock} (hfits : s.Fits E params (.connected b)) :
    (s.step E params (.connected b)).Ensures (Witnessed E params) := by
  unfold step
  cases htree : SaplingMerkleTree.empty.appendAll E ((chainOutputs E s.chain).map Prod.snd) with
  | error e => trivial
  | ok tree =>
    obtain ⟨hholds, -⟩ := SaplingMerkleTree.Holds.empty.appendAll (by simp) htree
    refine (incrementNoteWitnesses_witnessed h.notes hholds h.bounded).map
      fun cache hcache => ⟨hfits.1, fun pre hpre hquiet => ?_, hcache.1, hcache.2⟩
    rcases prefix_concat_iff.mp hpre with rfl | hpre
    · have hbefore : chainOutputs E s.chain = [] := by
        refine h.quiet s.chain (prefix_refl _) ?_
        by_contra hactive
        rw [params.consensus.networkUpgradeActive_mono (by simp)
          (Bool.not_eq_false _ |>.mp hactive)] at hquiet
        cases hquiet
      rw [chainOutputs_concat, hbefore, hfits.2 (by simpa using hquiet)]
      rfl
    · exact h.quiet pre hpre hquiet

theorem Witnessed.disconnected (hfits : s.Fits E params .disconnected) :
    (s.step E params .disconnected).Ensures (Witnessed E params) := by
  obtain ⟨chain, b, hchain⟩ : ∃ chain b, s.chain = chain ++ [b] := by
    have hlen : 2 ≤ s.chain.length := hfits
    exact ⟨_, _, (dropLast_concat_getLast (ne_nil_of_length_pos (by omega))).symm⟩
  have hnotes := h.notes
  have hshort : chainOutputs E s.chain = chainOutputs E chain ++ shieldedOutputs E b.vtx := by
    rw [hchain, chainOutputs_concat]
  have hrest : ∀ cache : NoteCache, (∀ nd ∈ cache.notes, nd.Witnessed E chain) →
      Witnessed E params ⟨chain, cache⟩ := by
    intro cache hcache
    refine ⟨?_, fun pre hpre => h.quiet pre (hpre.trans ?_), ?_, hcache⟩
    · have hnodup := h.outpoints
      rw [hshort, map_append] at hnodup
      exact hnodup.of_append_left
    · rw [hchain]
      exact prefix_append chain [b]
    · have hbounded := h.bounded
      rw [hshort, length_append] at hbounded
      exact (Nat.le_add_right _ _).trans hbounded
  have hheight : (s.chain.length : ℤ) - 1 = chain.length := by simp [hchain]
  rw [hchain] at hnotes
  simp only [step, hheight]
  rw [hchain, dropLast_concat]
  split
  · exact (decrementNoteWitnesses_witnessed hnotes).map fun cache hcache =>
      hrest cache hcache
  · next hquiet =>
    refine hrest s.cache fun nd hnd => ?_
    have hnone : chainOutputs E s.chain = [] :=
      h.quiet s.chain (prefix_refl _) (by rw [hheight]; simpa using hquiet)
    exact .of_nil ((h.notes nd hnd).tracks.eq_nil hnone)

theorem Witnessed.step {call : NoteCall} (hfits : s.Fits E params call) :
    (s.step E params call).Ensures (Witnessed E params) := by
  cases call with
  | connected b => exact h.connected hfits
  | disconnected => exact h.disconnected hfits
  | added op isMyNote =>
    refine ⟨h.outpoints, h.quiet, h.bounded, fun nd hnd => ?_⟩
    simp only [addNote] at hnd
    split at hnd
    · exact h.notes nd hnd
    · rcases mem_cons.mp hnd with rfl | hnd
      · exact .of_nil rfl
      · exact h.notes nd hnd
  | cleared =>
    refine ⟨h.outpoints, h.quiet, h.bounded, fun nd hnd => ?_⟩
    obtain ⟨nd', -, rfl⟩ := mem_map.mp hnd
    exact .of_nil rfl

/-- **A front witness has the right root, and is right exactly below `2 ^ 31`.** -/
theorem Witnessed.rightWitness_iff {nd : SaplingNoteData} (hnd : nd ∈ s.cache.notes)
    {w : SaplingWitness} {ws : List SaplingWitness} (hw : nd.witnesses = w :: ws) {i : ℕ}
    {cm : Uint256} (hi : (chainOutputs E s.chain)[i]? = some (nd.op, cm)) :
    s.RightRoot E w cm ∧ (s.RightWitness E w i cm ↔ i < 2 ^ 31) := by
  have htracks := (h.notes nd hnd).tracks
  rw [hw] at htracks
  have hroot := htracks.head.root_eq
  obtain ⟨pre, cm', post, houtputs, hholds⟩ := htracks.head
  -- The outpoint of the note occurs once, so the witness is of the commitment at the index.
  obtain ⟨rfl, rfl⟩ : pre.length = i ∧ cm' = cm := by
    have hnodup := h.outpoints
    have hat : (chainOutputs E s.chain)[pre.length]? = some (nd.op, cm') := by
      simp [houtputs]
    have hsame : pre.length = i := by
      refine (getElem?_inj (by simp [houtputs]) hnodup).mp ?_
      rw [getElem?_map, getElem?_map, hat, hi]
      rfl
    rw [hsame, hi] at hat
    cases hat
    exact ⟨hsame, rfl⟩
  obtain ⟨tree, htree, htreeHolds⟩ := SaplingMerkleTree.Holds.empty.exists_appendAll
    ((chainOutputs E s.chain).map Prod.snd) (by simpa using h.bounded)
  have htip : tree.root E = w.root E := by
    rw [hroot, htreeHolds.root_eq (by simp [houtputs]) (by simpa using h.bounded)]
    rfl
  have hposition := hholds.tree.position_iff hholds.bounded (i := pre.length) (by simp)
  have hright : s.RightRoot E w cm' := ⟨⟨tree, htree, htip.symm⟩, hholds.element_eq (by simp)⟩
  exact ⟨hright, fun h => hposition.mp h.2, fun hlt => ⟨hright, hposition.mpr hlt⟩⟩

end

/-- **Whatever blocks were connected and disconnected, the front witness of a note has the root
of the tree at the tip.** It is right exactly if the index of the note is below `2 ^ 31`, and the
witnesses of any notes have the same root. -/
theorem noteWitness_right_iff {calls : List NoteCall} (h : s.Witnessed E params)
    (hfits : Run.EachAction (NoteView.step E params) s (Fits E params) calls)
    (ht : Run.after (NoteView.step E params) s calls = .ok t) :
    (∀ nd ∈ t.cache.notes, nd.isMyNote = true → ∀ w ws, nd.witnesses = w :: ws →
      ∀ i cm, (chainOutputs E.toHashing t.chain)[i]? = some (nd.op, cm) →
        t.RightRoot E w cm ∧ (t.RightWitness E w i cm ↔ i < 2 ^ 31)) ∧
      ∀ ops, ∃ r, t.cache.getSaplingNoteWitnesses E ops = .ok r := by
  have hwitnessed : t.Witnessed E params := by
    refine Run.invariant h (fun pre call post u v hcalls hu hstep hprev => ?_) ht
    exact (hprev.step (hfits pre call post u hcalls hu)).of_ok hstep
  exact ⟨fun nd hnd _ w ws hw i cm hi => hwitnessed.rightWitness_iff hnd hw hi,
    exists_getSaplingNoteWitnesses hwitnessed.notes⟩

namespace CacheSample

variable {m n : ℕ}

/-- A chain of `m` blocks with two shielded outputs each after the first one, and a wallet that has
the transaction of its note already. -/
def start (m : ℕ) : NoteView where
  chain := ⟨ofNat 1, []⟩ :: (range m).map fun n => ⟨ofNat 2, [tx n 2]⟩
  cache := ⟨[⟨op, true, [], -1⟩], 0⟩

theorem shieldedOutputs_tx (hn : n < 2 ^ 32) :
    shieldedOutputs env [tx n 2] = [(⟨ofNat n, 0⟩, ofNat 7), (⟨ofNat n, 1⟩, ofNat 7)] := by
  have hid : (tx n 2).getHash env = ofNat n := by
    show ofNat (Bytes.toNatLE (Bytes.ofNatLE 4 (UInt32.ofNat n).toNat)) = _
    rw [Bytes.toNatLE_ofNatLE, UInt32.toNat_ofNat', Nat.mod_eq_of_lt hn]
    exact congrArg ofNat (Nat.mod_eq_of_lt hn)
  rw [← hid]
  rfl

theorem shieldedOutputs_block : shieldedOutputs env block.vtx = [(op, ofNat 7)] := by decide +kernel

theorem chainOutputs_start (hm : m ≤ 2 ^ 30) :
    chainOutputs env (start m).chain =
      (range m).flatMap fun n => [(⟨ofNat n, 0⟩, ofNat 7), (⟨ofNat n, 1⟩, ofNat 7)] := by
  simp only [chainOutputs, start, flatMap_cons, flatMap_map]
  refine congrArg flatten (map_congr_left fun n hn => shieldedOutputs_tx ?_)
  have := mem_range.mp hn
  omega

theorem length_chainOutputs (hm : m ≤ 2 ^ 30) : (chainOutputs env (start m).chain).length = 2 * m := by
  simp [chainOutputs_start hm, length_flatMap, mul_comm]

theorem ofNat_ne {a b : ℕ} (ha : a < 2 ^ 32) (hb : b < 2 ^ 32) (hne : a ≠ b) :
    (ofNat a : Uint256) ≠ ofNat b := by
  intro heq
  have hsame := congrArg BaseUint.toNat heq
  rw [toNat_ofNat, toNat_ofNat, Nat.mod_eq_of_lt (by omega), Nat.mod_eq_of_lt (by omega)] at hsame
  exact hne hsame

theorem nodup_chainOutputs (hm : m ≤ 2 ^ 30) :
    ((chainOutputs env (start m).chain).map Prod.fst).Nodup := by
  rw [chainOutputs_start hm, map_flatMap, nodup_flatMap]
  refine ⟨fun n _ => by simp, nodup_range.imp_of_mem fun {a b} ha hb hne => ?_⟩
  have hids := ofNat_ne (by have := mem_range.mp ha; omega) (by have := mem_range.mp hb; omega) hne
  simp [Function.onFun, hids.symm]

theorem active_start (m : ℕ) :
    mainParams.consensus.networkUpgradeActive (start m).chain.length .upgradeV5_0 = true := by
  have hle : (1 : ℤ) ≤ (start m).chain.length := by simp [start]
  exact mainParams.consensus.networkUpgradeActive_mono hle rfl

theorem start_witnessed (hm : m ≤ 2 ^ 30) : (start m).Witnessed env mainParams where
  outpoints := nodup_chainOutputs hm
  quiet pre hpre hquiet := by
    have hlen : pre.length ≤ 1 := by
      by_contra hlong
      have hle : (1 : ℤ) ≤ pre.length - 1 := by omega
      rw [mainParams.consensus.networkUpgradeActive_mono hle rfl] at hquiet
      cases hquiet
    match pre, hlen with
    | [], _ => rfl
    | [b], _ =>
      obtain ⟨rest, hrest⟩ := hpre
      cases hrest
      rfl
  bounded := by
    rw [length_chainOutputs hm]
    show 2 * m ≤ 2 ^ 32
    omega
  notes nd hnd := by
    obtain rfl := mem_singleton.mp hnd
    exact .of_nil rfl

theorem start_fits (hm : m ≤ 2 ^ 30) :
    Run.EachAction (NoteView.step env mainParams) (start m) (Fits env mainParams)
      [.connected block] := by
  refine .cons ⟨?_, fun hquiet => absurd ((active_start m).symm.trans hquiet) (by decide)⟩
    fun _ _ => Run.eachAction_nil
  rw [chainOutputs_concat, shieldedOutputs_block, map_append]
  refine (nodup_chainOutputs hm).append (by simp) ?_
  intro a ha hb
  rw [chainOutputs_start hm, map_flatMap] at ha
  obtain ⟨n, hn, ha⟩ := mem_flatMap.mp ha
  have hid : a.hash = ofNat n := by
    simp only [map_cons, map_nil, mem_cons, not_mem_nil, or_false] at ha
    rcases ha with rfl | rfl <;> rfl
  rw [mem_singleton.mp hb] at hid
  exact ofNat_ne (by decide) (by have := mem_range.mp hn; omega)
    (by have := mem_range.mp hn; omega) hid

theorem getElem?_chainOutputs (hm : m ≤ 2 ^ 30) :
    (chainOutputs env ((start m).chain ++ [block]))[2 * m]? = some (op, ofNat 7) := by
  rw [chainOutputs_concat, shieldedOutputs_block, ← length_chainOutputs hm]
  simp

/-- The block is connected, and the note has a witness. -/
theorem exists_connected (hm : m ≤ 2 ^ 30) :
    ∃ tree cache, (start m).step env mainParams (.connected block) =
        .ok ⟨(start m).chain ++ [block], cache⟩ ∧
      ⟨op, true, [SaplingMerkleTree.witness tree], m + 1⟩ ∈ cache.notes := by
  obtain ⟨tree, htree, hholds⟩ := (SaplingMerkleTree.Holds.empty (E := env)).exists_appendAll
    ((chainOutputs env (start m).chain).map Prod.snd)
    (by simpa using (start_witnessed hm).bounded)
  have hlen : ([] ++ (chainOutputs env (start m).chain).map Prod.snd).length <
      2 ^ SAPLING_INCREMENTAL_MERKLE_TREE_DEPTH := by
    rw [nil_append, length_map, length_chainOutputs hm]
    show 2 * m < 2 ^ 32
    omega
  obtain ⟨tree', htree', -⟩ := hholds.exists_append hlen (ofNat 7)
  have hempty : (⟨none, none, []⟩ : SaplingMerkleTree) = .empty := rfl
  rw [hempty] at htree
  have hheight : ((start m).chain.length : ℤ) = m + 1 := by simp [start]
  have hinc : (start m).cache.incrementNoteWitnesses env (m + 1) block.vtx tree =
      .ok ⟨[⟨op, true, [tree'.witness], m + 1⟩], 1⟩ := by
    have hloop : [(op, ofNat 7)].foldlM (incrementOutput env (m + 1) 1)
        (tree, [⟨op, true, [], -1⟩]) =
        .ok (tree', [⟨op, true, [tree'.witness], (m + 1 : ℤ) - 1⟩]) := by
      rw [foldlM_cons, incrementOutput, htree']
      rfl
    have hupdate : updateWitnessHeights (m + 1) 1 ⟨op, true, [tree'.witness], (m + 1 : ℤ) - 1⟩ =
        .ok ⟨op, true, [tree'.witness], m + 1⟩ := by
      rw [updateWitnessHeights, if_pos (by simp)]
      rfl
    change bind ([(op, ofNat 7)].foldlM (incrementOutput env (m + 1) 1)
      (tree, [⟨op, true, [], -1⟩])) _ = _
    rw [hloop]
    change Except.map _ ([_].mapM (updateWitnessHeights (m + 1) 1)) = _
    rw [mapM_cons, hupdate]
    rfl
  refine ⟨tree', ⟨[⟨op, true, [tree'.witness], m + 1⟩], 1⟩, ?_, mem_singleton_self _⟩
  rw [step, htree, hheight]
  exact congrArg (Except.map _) hinc

theorem after_connected {t : NoteView}
    (h : (start m).step env mainParams (.connected block) = .ok t) :
    Run.after (NoteView.step env mainParams) (start m) [.connected block] = .ok t :=
  (Run.after_concat (l := [])).mpr ⟨_, rfl, h⟩

end CacheSample

open CacheSample in
/-- The third commitment of a chain is that of a note of the wallet. -/
theorem noteWitness_right_third : ∃ w t,
    Run.after (NoteView.step env mainParams) (start 1) [.connected block] = .ok t ∧
      (∃ nd ∈ t.cache.notes, nd.witnesses = [w]) ∧ t.RightWitness env w 2 (BaseUint.ofNat 7) := by
  obtain ⟨tree, cache, hstep, hnotes⟩ := exists_connected (m := 1) (by decide)
  have hright := (noteWitness_right_iff (start_witnessed (by decide)) (start_fits (by decide))
    (after_connected hstep)).1 _ hnotes rfl tree.witness [] rfl 2 (ofNat 7)
      (getElem?_chainOutputs (by decide))
  exact ⟨tree.witness, _, after_connected hstep, ⟨_, hnotes, rfl⟩, hright.2.mpr (by decide)⟩

open CacheSample in
/-- **The position of a note after `2 ^ 31` others is wrong**, in `2 ^ 30` blocks. -/
theorem not_noteWitness_right :
    ¬ ∀ (E : Env) (params : CChainParams) (s t : NoteView) (calls : List NoteCall),
      s.Witnessed E params → Run.EachAction (NoteView.step E params) s (Fits E params) calls →
      ¬ List.replicate WITNESS_CACHE_SIZE .disconnected <:+: calls →
      Run.after (NoteView.step E params) s calls = .ok t →
        ∀ nd ∈ t.cache.notes, nd.isMyNote = true → ∀ w ws, nd.witnesses = w :: ws →
          ∀ i cm, (chainOutputs E.toHashing t.chain)[i]? = some (nd.op, cm) →
            t.RightWitness E w i cm := by
  intro h
  obtain ⟨m, hm, hlarge⟩ : ∃ m, m ≤ 2 ^ 30 ∧ ¬ 2 * m < 2 ^ 31 := ⟨2 ^ 30, le_rfl, by decide⟩
  obtain ⟨tree, cache, hstep, hnotes⟩ := exists_connected hm
  have hstart := start_witnessed hm
  have hfits := start_fits hm
  have hshort : ¬ replicate WITNESS_CACHE_SIZE NoteCall.disconnected <:+:
      [.connected block] :=
    fun hinfix => absurd hinfix.length_le (by simp [WITNESS_CACHE_SIZE, DEFAULT_MAX_REORG_DEPTH])
  have hat := getElem?_chainOutputs hm
  have hright := h env mainParams _ _ _ hstart hfits hshort (after_connected hstep) _ hnotes rfl
    tree.witness [] rfl (2 * m) (ofNat 7) hat
  have hwitnessed := (hstart.step (hfits [] _ [] _ rfl rfl)).of_ok hstep
  exact hlarge ((hwitnessed.rightWitness_iff hnotes rfl hat).2.mp hright)

end NoteView

end Passion
