import Passion.Chain.ActivationStep
import Passion.Chain.BuiltTree

/-!
# The selection rounds of the stake modifier

Each round goes over the candidates by time and stops early only once it has found a block, so it
finds one as long as a candidate is left that no earlier round has selected.
-/

namespace Passion

open List CBlockIndex

variable {H : Hashing} {params : CChainParams} {m : BlockMap} {items : List (ℤ × Uint256)}
  {sel : List Uint256} {nStakeModifier : ℕ}

/-! ## One round -/

/-- A block that a round may select. -/
structure Selectable (m : BlockMap) (items : List (ℤ × Uint256)) (sel : List Uint256)
    (p : CBlockIndex) : Prop where
  entry : m.lookup p.hashBlock = some p
  candidate : p.hashBlock ∈ items.map Prod.snd
  fresh : p.hashBlock ∉ sel

variable (H params nStakeModifier) in
/-- **A round finds a block** if one is found already or one is left. -/
theorem exists_selectBlockFromCandidates (stop : ℤ) {rest : List (ℤ × Uint256)}
    (hitems : ∀ item ∈ items, ∃ p, m.lookup item.2 = some p ∧ p.hashBlock = item.2)
    (hsub : rest ⊆ items) (v2 : Option Bool) {best : Option (Uint256 × CBlockIndex)}
    (hbest : ∀ b ∈ best, Selectable m items sel b.2)
    (hleft : best.isSome = true ∨ ∃ item ∈ rest, item.2 ∉ sel) :
    ∃ p, selectBlockFromCandidates H params m sel stop nStakeModifier rest v2 best = some p ∧
      Selectable m items sel p := by
  induction rest generalizing v2 best with
  | nil =>
    obtain ⟨b, hb⟩ := Option.isSome_iff_exists.mp (hleft.resolve_right (by simp))
    exact ⟨b.2, by rw [hb]; rfl, hbest b hb⟩
  | cons item rest ih =>
    have hin := hsub mem_cons_self
    obtain ⟨pindex, hlook, hkey⟩ := hitems item hin
    have hsub' : rest ⊆ items := fun x hx => hsub (mem_cons_of_mem _ hx)
    rw [selectBlockFromCandidates, hlook]
    dsimp only
    split
    · rename_i hstop
      obtain ⟨b, hb⟩ := Option.isSome_iff_exists.mp (Bool.and_eq_true_iff.mp hstop).1
      exact ⟨b.2, by rw [hb]; rfl, hbest b hb⟩
    · split
      · -- The candidate was selected in an earlier round.
        rename_i hold
        refine ih hsub' _ hbest (hleft.imp_right ?_)
        rintro ⟨x, hx, hfresh⟩
        rcases mem_cons.mp hx with rfl | hx
        · exact absurd (hkey ▸ hold) hfresh
        · exact ⟨x, hx, hfresh⟩
      · rename_i hfresh
        have hnew : Selectable m items sel pindex :=
          ⟨hkey ▸ hlook, hkey ▸ mem_map_of_mem hin, hfresh⟩
        cases best with
        | none =>
          refine ih hsub' _ (fun b hb => ?_) (.inl rfl)
          cases hb
          exact hnew
        | some old =>
          obtain ⟨hashBest, q⟩ := old
          have hboth : ∀ c [Decidable c] x,
              ∀ b ∈ (if c then some (x, pindex) else some (hashBest, q)),
                Selectable m items sel b.2 := by
            intro c _ x b hb
            split at hb <;> cases hb
            · exact hnew
            · exact hbest _ rfl
          refine ih hsub' _ (hboth _ _) (.inl ?_)
          dsimp only
          rw [← apply_ite some]
          rfl

/-! ## All rounds -/

variable (H params m items nStakeModifier) in
/-- The blocks that the rounds select. -/
def roundSelections : ℕ → ℕ → ℤ → List Uint256 → Option (List CBlockIndex)
  | 0, _, _, _ => some []
  | n + 1, nRound, nSelectionIntervalStop, mapSelectedBlocks =>
    let stop := nSelectionIntervalStop + getStakeModifierSelectionIntervalSection nRound
    match selectBlockFromCandidates H params m mapSelectedBlocks stop nStakeModifier items none
        none with
    | none => none
    | some pindex =>
      (roundSelections n (nRound + 1) stop (pindex.hashBlock :: mapSelectedBlocks)).map (pindex :: ·)

/-- The entropy bits of blocks, from a round on. -/
def entropyBits : ℕ → List CBlockIndex → ℕ
  | _, [] => 0
  | nRound, p :: l => p.getStakeEntropyBit <<< nRound ||| entropyBits (nRound + 1) l

/-- The rounds write the entropy bits of the blocks they select. -/
theorem selectionRounds_eq (n nRound : ℕ) (stop : ℤ) (sel : List Uint256) (new : ℕ) :
    selectionRounds H params m items nStakeModifier n nRound stop sel new =
      (roundSelections H params m items nStakeModifier n nRound stop sel).map fun l =>
        new ||| entropyBits nRound l := by
  induction n generalizing nRound stop sel new with
  | zero => simp [selectionRounds, roundSelections, entropyBits]
  | succ n ih =>
    rw [selectionRounds, roundSelections]
    cases selectBlockFromCandidates H params m sel
      (stop + getStakeModifierSelectionIntervalSection nRound) nStakeModifier items none none with
    | none => rfl
    | some p =>
      dsimp only
      rw [ih]
      simp [Function.comp_def, entropyBits, Nat.or_assoc]

theorem testBit_entropyBits_of_lt {j nRound : ℕ} (h : j < nRound) (l : List CBlockIndex) :
    (entropyBits nRound l).testBit j = false := by
  induction l generalizing nRound with
  | nil => exact Nat.zero_testBit j
  | cons p l ih =>
    rw [entropyBits, Nat.testBit_or, ih (by omega), Nat.testBit_shiftLeft, decide_eq_false (by omega)]
    rfl

/-- Bit `nRound + r` is the entropy bit of block `r`. -/
theorem testBit_entropyBits {l : List CBlockIndex} {r : ℕ} {p : CBlockIndex} (h : l[r]? = some p)
    (nRound : ℕ) :
    (entropyBits nRound l).testBit (nRound + r) = decide (p.getStakeEntropyBit = 1) := by
  induction l generalizing nRound r with
  | nil => cases h
  | cons q l ih =>
    have hbit : q.getStakeEntropyBit < 2 := Nat.mod_lt _ (by decide)
    rw [entropyBits, Nat.testBit_or, Nat.testBit_shiftLeft, decide_eq_true (by omega),
      Bool.true_and, Nat.add_sub_cancel_left]
    cases r with
    | zero =>
      obtain rfl : q = p := Option.some.inj h
      rw [testBit_entropyBits_of_lt (by omega)]
      rcases (by omega : q.getStakeEntropyBit = 0 ∨ q.getStakeEntropyBit = 1) with hq | hq <;>
        rw [hq] <;> rfl
    | succ r =>
      have hhigh : q.getStakeEntropyBit.testBit (r + 1) = false :=
        Nat.testBit_lt_two_pow (hbit.trans_le (Nat.le_self_pow (by omega) 2))
      rw [hhigh, show nRound + (r + 1) = nRound + 1 + r by omega]
      exact ih h (nRound + 1)

variable (H params nStakeModifier) in
/-- **The rounds succeed** as long as there are candidates left, each with a new block. -/
theorem exists_roundSelections (hnodup : (items.map Prod.snd).Nodup)
    (hitems : ∀ item ∈ items, ∃ p, m.lookup item.2 = some p ∧ p.hashBlock = item.2)
    (n nRound : ℕ) (stop : ℤ) (hsel : sel.Nodup) (hlen : n + sel.length ≤ items.length) :
    ∃ l, roundSelections H params m items nStakeModifier n nRound stop sel = some l ∧
      l.length = n ∧ (l.map hashBlock ++ sel).Nodup ∧
      ∀ p ∈ l, m.lookup p.hashBlock = some p ∧ p.hashBlock ∈ items.map Prod.snd := by
  induction n generalizing nRound stop sel with
  | zero => exact ⟨[], rfl, rfl, hsel, by simp⟩
  | succ n ih =>
    have hleft : ∃ item ∈ items, item.2 ∉ sel := by
      by_contra hno
      have hsub : items.map Prod.snd ⊆ sel := fun x hx => by
        obtain ⟨item, hitem, rfl⟩ := mem_map.mp hx
        by_contra hx
        exact hno ⟨item, hitem, hx⟩
      have hle := (subperm_of_subset hnodup hsub).length_le
      rw [length_map] at hle
      omega
    obtain ⟨p, hp, hok⟩ := exists_selectBlockFromCandidates H params nStakeModifier
      (stop + getStakeModifierSelectionIntervalSection nRound) hitems (Subset.refl _) none
      (fun b (hb : b ∈ none) => by cases hb) (.inr hleft)
    obtain ⟨l, hl, hcount, hnd, hall⟩ := ih (nRound + 1)
      (stop + getStakeModifierSelectionIntervalSection nRound)
      (nodup_cons.mpr ⟨hok.fresh, hsel⟩) (by rw [length_cons]; omega)
    refine ⟨p :: l, ?_, by rw [length_cons, hcount], ?_, ?_⟩
    · rw [roundSelections, hp]
      dsimp only
      rw [hl]
      rfl
    · rw [map_cons, cons_append, ← perm_middle.nodup_iff]
      exact hnd
    · exact forall_mem_cons.mpr ⟨⟨hok.entry, hok.candidate⟩, hall⟩

/-! ## The last generated modifier -/

variable {literal : UInt64} {t : BlockTree} {p : CBlockIndex} {k : Uint256}

/-- **The search for the last generated modifier succeeds** above a root. -/
theorem Built.exists_generated (hm : Built params m) (hp : m.lookup k = some p)
    (hpos : p.nHeight ≠ 0)
    (hbelow : params.consensus.networkUpgradeActive (p.nHeight + 1) .upgradePos = false) :
    ∃ r, ((p.ancestors m).find? fun p => p.pprev.isNone || p.generatedStakeModifier) = some r ∧
      r.generatedStakeModifier = true := by
  revert hpos hbelow
  refine hm.induction ?_ ?_ hp
  · exact fun k p hp hroot hpos => absurd (hm.root hp hroot) hpos
  · intro k p g q hp hprev hq ih hpos hbelow
    have hchild := hm.ancestors_child hp hprev hq
    have hheight := hm.nHeight_child hp hprev hq
    have hearlier : ∀ {h}, h ≤ p.nHeight + 1 →
        params.consensus.networkUpgradeActive h .upgradePos = false := fun hle => by
      rw [← Bool.not_eq_true]
      intro hact
      rw [params.consensus.networkUpgradeActive_mono hle hact] at hbelow
      cases hbelow
    rw [hchild]
    cases hgen : p.generatedStakeModifier with
    | true => exact ⟨p, by rw [find?_cons, hgen, Bool.or_true], hgen⟩
    | false =>
      have hq0 : q.nHeight ≠ 0 := fun h0 => by
        have hfirst := hm.first hp hprev hq h0 (hearlier (by omega))
        rw [generatedStakeModifier, hfirst] at hgen
        cases hgen
      rw [find?_cons, hgen, hprev]
      exact ih hq0 (hearlier (by omega))

/-! ## The selected blocks -/

theorem perm_sortedByTimestamp (candidates : List CBlockIndex) :
    (sortedByTimestamp candidates).Perm (candidates.map fun q => (q.getBlockTime, q.hashBlock)) :=
  (perm_insertionSort _ _).trans (reverse_perm _)

/-- **The rounds select**: as many distinct candidates as there are rounds, or all of them. -/
theorem Built.exists_selected (hm : Built params m) (hp : m.lookup k = some p)
    (nStakeModifier : ℕ) :
    let candidates := modifierCandidates m p
    ∃ selected, roundSelections H params m (sortedByTimestamp candidates) nStakeModifier
        (min 64 candidates.length) 0 (selectionIntervalStart p) [] = some selected ∧
      selected.length = min 64 candidates.length ∧ (selected.map hashBlock).Nodup ∧
      ∀ q ∈ selected, q ∈ candidates ∧ selectionIntervalStart p ≤ q.getBlockTime := by
  intro candidates
  have hsub : candidates.Sublist (p.ancestors m) := takeWhile_sublist _
  have hlook : ∀ q ∈ candidates, m.lookup q.hashBlock = some q := fun q hq =>
    hm.lookup_ancestor hp (hsub.subset hq)
  have hperm := perm_sortedByTimestamp candidates
  have hhash : ((sortedByTimestamp candidates).map Prod.snd).Perm (candidates.map hashBlock) := by
    have hmap := hperm.map Prod.snd
    rwa [map_map] at hmap
  obtain ⟨selected, hsel, hcount, hnd, hall⟩ := exists_roundSelections H params nStakeModifier
    (hhash.nodup_iff.mpr ((hm.toIsTree.nodup_ancestors hp).sublist (hsub.map _)))
    (fun item hitem => by
      obtain ⟨q, hq, rfl⟩ := mem_map.mp (hperm.subset hitem)
      exact ⟨q, hlook q hq, rfl⟩)
    (min 64 candidates.length) 0 (selectionIntervalStart p) nodup_nil
    (by rw [length_nil, hperm.length_eq, length_map]; omega)
  refine ⟨selected, hsel, hcount, by simpa using hnd, fun q hq => ?_⟩
  obtain ⟨hentry, hin⟩ := hall q hq
  obtain ⟨r, hr, heq⟩ := mem_map.mp (hhash.subset hin)
  cases hm.eq_of_hashBlock (hlook r hr) hentry heq
  -- a candidate was met before the walk came to an older block
  have htime := mem_takeWhile_imp (show q ∈ takeWhile _ _ from hr)
  exact ⟨hr, of_decide_eq_true htime⟩

/-- **Stake-modifier selection is sound.** Below proof of stake `ComputeNextStakeModifier` does
not fail. After a root it takes the address of the literal and selects nothing; otherwise a
modifier that it generates holds the entropy bits of the `min 64 n` distinct ones of the `n`
candidates, not older than the start of the interval, that the rounds select with the last
generated modifier. -/
theorem computeNextStakeModifier_sound {blocks : List CBlock}
    (hself : ∀ block ∈ blocks, block.hashPrevBlock ≠ block.getHash H)
    (hrun : addBlocks H params literal .empty blocks = .ok t) {pindexPrev : CBlockIndex}
    (hprev : t.mapBlockIndex.lookup k = some pindexPrev)
    (hbelow : params.consensus.networkUpgradeActive (pindexPrev.nHeight + 1) .upgradePos = false) :
    let next := computeNextStakeModifier H params literal t.mapBlockIndex (some pindexPrev)
    let candidates := modifierCandidates t.mapBlockIndex pindexPrev
    next.ret = true ∧
      (pindexPrev.nHeight = 0 → next = ⟨true, literal.toNat, true⟩) ∧
      (pindexPrev.nHeight ≠ 0 → next.fGeneratedStakeModifier = true →
        ∃ last selected, ((pindexPrev.ancestors t.mapBlockIndex).find? fun p =>
            p.pprev.isNone || p.generatedStakeModifier) = some last ∧
          last.generatedStakeModifier = true ∧
          roundSelections H params t.mapBlockIndex (sortedByTimestamp candidates)
            last.getStakeModifierV1 (min 64 candidates.length) 0
            (selectionIntervalStart pindexPrev) [] = some selected ∧
          selected.length = min 64 candidates.length ∧ (selected.map hashBlock).Nodup ∧
          (∀ p ∈ selected, p ∈ candidates ∧ selectionIntervalStart pindexPrev ≤ p.getBlockTime) ∧
          ∀ r p, selected[r]? = some p →
            next.nStakeModifier.testBit r = decide (p.getStakeEntropyBit = 1)) := by
  intro next candidates
  have hm := Built.empty.run hself hrun
  by_cases h0 : pindexPrev.nHeight = 0
  · have hnext : next = ⟨true, literal.toNat, true⟩ := if_pos h0
    exact ⟨by rw [hnext], fun _ => hnext, fun hne => absurd h0 hne⟩
  obtain ⟨last, hfind, hgen⟩ := hm.exists_generated hprev h0 hbelow
  obtain ⟨selected, hsel, hcount, hnodup, hall⟩ :=
    hm.exists_selected (H := H) hprev last.getStakeModifierV1
  have hlen : ∀ l, (sortedByTimestamp l).length = l.length := fun l => by
    rw [(perm_sortedByTimestamp l).length_eq, length_map]
  have hnext : next = if last.getBlockTime / MODIFIER_INTERVAL ≥
      pindexPrev.getBlockTime / MODIFIER_INTERVAL then ⟨true, last.getStakeModifierV1, false⟩
      else ⟨true, entropyBits 0 selected, true⟩ := by
    simp only [next, computeNextStakeModifier, if_neg h0, hfind, hgen, Bool.not_true,
      Bool.false_eq_true, if_false, selectionRounds_eq, hlen, hsel, Option.map_some, Nat.zero_or]
  by_cases hold : last.getBlockTime / MODIFIER_INTERVAL ≥ pindexPrev.getBlockTime / MODIFIER_INTERVAL
  · rw [hnext, if_pos hold]
    exact ⟨rfl, fun h => absurd h h0, fun _ hfalse => by cases hfalse⟩
  · rw [hnext, if_neg hold]
    refine ⟨rfl, fun h => absurd h h0, fun _ _ => ⟨last, selected, hfind, hgen, hsel, hcount,
      hnodup, hall, fun r p hr => ?_⟩⟩
    have hbit := testBit_entropyBits hr 0
    rwa [Nat.zero_add] at hbit

/-- Three blocks, the last one a minute later: all of them are selected. -/
theorem computeNextStakeModifier_sound_three : ∃ t p selected, ∃ last : CBlockIndex,
    addBlocks nonceHashing mainParams 0 .empty [bareBlock BaseUint.zero 7,
      bareBlock (BaseUint.ofNat 7) 8, { bareBlock (BaseUint.ofNat 8) 9 with nTime := 1628165560 }] = .ok t ∧
    t.mapBlockIndex.lookup (BaseUint.ofNat 9) = some p ∧ last.generatedStakeModifier = true ∧
    roundSelections nonceHashing mainParams t.mapBlockIndex
      (sortedByTimestamp (modifierCandidates t.mapBlockIndex p)) last.getStakeModifierV1 3 0
      (selectionIntervalStart p) [] = some selected ∧ (selected.map hashBlock).Nodup := by
  obtain ⟨t, hrun, p, hlook, hgen, hheight, hlen⟩ : ∃ t,
      addBlocks nonceHashing mainParams 0 .empty [bareBlock BaseUint.zero 7, bareBlock
        (BaseUint.ofNat 7) 8, { bareBlock (BaseUint.ofNat 8) 9 with nTime := 1628165560 }] = .ok t ∧
      ∃ p, t.mapBlockIndex.lookup (BaseUint.ofNat 9) = some p ∧
        (computeNextStakeModifier nonceHashing mainParams 0 t.mapBlockIndex
          (some p)).fGeneratedStakeModifier = true ∧ p.nHeight = 2 ∧
        (modifierCandidates t.mapBlockIndex p).length = 3 := by
    decide +kernel
  obtain ⟨-, -, hsound⟩ := computeNextStakeModifier_sound (by decide +kernel) hrun hlook
    (by rw [hheight]; decide)
  obtain ⟨last, selected, -, hlast, hsel, -, hnodup, -⟩ := hsound (by omega) hgen
  rw [hlen] at hsel
  exact ⟨t, p, selected, last, hrun, hlook, hlast, hsel, hnodup⟩

/-- **After the genesis block a modifier is generated without a round.** It is the address of the
literal, whatever the entropy bit of the only candidate is. -/
theorem not_computeNextStakeModifier_selected :
    ¬ ∀ (H : Hashing) (params : CChainParams) (literal : UInt64) (blocks : List CBlock)
      (t : BlockTree) (k : Uint256) (pindexPrev : CBlockIndex),
      (∀ block ∈ blocks, block.hashPrevBlock ≠ block.getHash H) →
      addBlocks H params literal .empty blocks = .ok t →
      t.mapBlockIndex.lookup k = some pindexPrev →
      params.consensus.networkUpgradeActive (pindexPrev.nHeight + 1) .upgradePos = false →
      let next := computeNextStakeModifier H params literal t.mapBlockIndex (some pindexPrev)
      let candidates := modifierCandidates t.mapBlockIndex pindexPrev
      next.fGeneratedStakeModifier = true → ∃ selected : List CBlockIndex,
        selected.length = min 64 candidates.length ∧ (∀ p ∈ selected, p ∈ candidates) ∧
        ∀ r p, selected[r]? = some p →
          next.nStakeModifier.testBit r = decide (p.getStakeEntropyBit = 1) := by
  intro hall
  obtain ⟨t, hrun, p, hlook, hheight, hgen, hlen, hbits, hzero⟩ : ∃ t,
      addBlocks nonceHashing mainParams 0x400000 .empty [bareBlock BaseUint.zero 7] = .ok t ∧
      ∃ p, t.mapBlockIndex.lookup (BaseUint.ofNat 7) = some p ∧ p.nHeight = 0 ∧
        (computeNextStakeModifier nonceHashing mainParams 0x400000 t.mapBlockIndex
          (some p)).fGeneratedStakeModifier = true ∧
        (modifierCandidates t.mapBlockIndex p).length = 1 ∧
        (∀ q ∈ modifierCandidates t.mapBlockIndex p, q.getStakeEntropyBit = 1) ∧
        (computeNextStakeModifier nonceHashing mainParams 0x400000 t.mapBlockIndex
          (some p)).nStakeModifier.testBit 0 = false := by
    decide +kernel
  obtain ⟨selected, hcount, hsub, hbit⟩ := hall _ _ _ _ t _ p (by decide +kernel) hrun hlook
    (by rw [hheight]; decide) hgen
  rw [hlen] at hcount
  obtain ⟨q, rfl⟩ := length_eq_one_iff.mp hcount
  have hset := hbit 0 q rfl
  rw [hzero, hbits q (hsub q mem_cons_self)] at hset
  cases hset

end Passion
