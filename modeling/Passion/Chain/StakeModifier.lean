import Passion.Chain.BlockTree

/-!
# Stake modifiers and `AddToBlockIndex`

The modifier of a block is set when the block enters the index: a 64-bit value selected
from earlier blocks (`legacy/stakemodifier.cpp`) before proof of stake is active, and a
hash chain over the staked outputs afterwards (`chain.cpp`).

`ComputeNextStakeModifier` gives the first block after a root of the index the value
`uint64_t("stakemodifier")`: the conversion takes the address of the string literal. The
address belongs to the running process, so it is an argument here.
-/

namespace Passion

/-- `MODIFIER_INTERVAL`. -/
def MODIFIER_INTERVAL : ℕ := 60

/-- `MODIFIER_INTERVAL_RATIO`. -/
def MODIFIER_INTERVAL_RATIO : ℕ := 3

/-- `OLD_MODIFIER_INTERVAL`. -/
def OLD_MODIFIER_INTERVAL : ℤ := 2087

/-- `GetStakeModifierSelectionIntervalSection`. -/
def getStakeModifierSelectionIntervalSection (nSection : ℕ) : ℕ :=
  MODIFIER_INTERVAL * 63 / (63 + (63 - nSection) * ( MODIFIER_INTERVAL_RATIO - 1))

/-- The order `std::sort` uses on pairs of a time and a hash. -/
def candidateLE (a b : ℤ × Uint256) : Bool :=
  decide (a.1 < b.1) || (a.1 == b.1 && !b.2.lt a.2)

variable (H : Hashing) (params : CChainParams)

/-- `SelectBlockFromCandidates`, the loop over the candidates. `fModifierV2` is unset until
the first candidate; `best` is the selection so far with its hash. -/
def selectBlockFromCandidates (m : BlockMap) (mapSelectedBlocks : List Uint256)
    (nSelectionIntervalStop : ℤ) (nStakeModifierPrev : ℕ) :
    List (ℤ × Uint256) → Option Bool → Option (Uint256 × CBlockIndex) → Option CBlockIndex
  | [], _, best => best.map Prod.snd
  | item :: rest, fModifierV2, best =>
    match m.lookup item.2 with
    | none => none
    | some pindex =>
      if best.isSome && decide (pindex.getBlockTime > nSelectionIntervalStop) then
        best.map Prod.snd
      else
        -- The height of the first candidate decides which proof hash all of them use.
        let v2 := fModifierV2.getD (params.consensus.networkUpgradeActive pindex.nHeight .upgradePos)
        if pindex.hashBlock ∈ mapSelectedBlocks then
          selectBlockFromCandidates m mapSelectedBlocks nSelectionIntervalStop nStakeModifierPrev
            rest (some v2) best
        else
          let hashProof :=
            if v2 then pindex.hashBlock
            else if pindex.isProofOfStake then BaseUint.zero else pindex.hashBlock
          let hashed := H.hash (hashProof.toBytes ++ Bytes.ofNatLE 8 nStakeModifierPrev)
          let hashSelection := if pindex.isProofOfStake then hashed.shiftRight 32 else hashed
          let best' :=
            match best with
            | none => some (hashSelection, pindex)
            | some (hashBest, _) =>
              if hashSelection.lt hashBest then some (hashSelection, pindex) else best
          selectBlockFromCandidates m mapSelectedBlocks nSelectionIntervalStop nStakeModifierPrev
            rest (some v2) best'

/-- The selection rounds of `ComputeNextStakeModifier`, from round `nRound` for `n` more
rounds; `none` if a round finds no block. -/
def selectionRounds (m : BlockMap) (vSortedByTimestamp : List (ℤ × Uint256))
    (nStakeModifier : ℕ) : ℕ → ℕ → ℤ → List Uint256 → ℕ → Option ℕ
  | 0, _, _, _, nStakeModifierNew => some nStakeModifierNew
  | n + 1, nRound, nSelectionIntervalStop, mapSelectedBlocks, nStakeModifierNew =>
    let stop := nSelectionIntervalStop + getStakeModifierSelectionIntervalSection nRound
    match selectBlockFromCandidates H params m mapSelectedBlocks stop nStakeModifier
        vSortedByTimestamp none none with
    | none => none
    | some pindex =>
      selectionRounds m vSortedByTimestamp nStakeModifier n (nRound + 1) stop
        (pindex.hashBlock :: mapSelectedBlocks)
        (nStakeModifierNew ||| (pindex.getStakeEntropyBit <<< nRound))

/-- What `ComputeNextStakeModifier` returns and sets. -/
structure NextModifier where
  ret : Bool
  nStakeModifier : ℕ
  fGeneratedStakeModifier : Bool

/-- `nSelectionIntervalStart`. -/
def selectionIntervalStart (pindexPrev : CBlockIndex) : ℤ :=
  pindexPrev.getBlockTime / MODIFIER_INTERVAL * MODIFIER_INTERVAL - OLD_MODIFIER_INTERVAL

/-- The candidate blocks, from the last one back. -/
def modifierCandidates (m : BlockMap) (pindexPrev : CBlockIndex) : List CBlockIndex :=
  (pindexPrev.ancestors m).takeWhile fun q =>
    decide (q.getBlockTime ≥ selectionIntervalStart pindexPrev)

/-- `vSortedByTimestamp`. -/
def sortedByTimestamp (candidates : List CBlockIndex) : List (ℤ × Uint256) :=
  (candidates.map fun q => (q.getBlockTime, q.hashBlock)).reverse.insertionSort
    fun a b => candidateLE a b = true

/-- `ComputeNextStakeModifier`. -/
def computeNextStakeModifier (literal : UInt64) (m : BlockMap) :
    Option CBlockIndex → NextModifier
  | none => ⟨true, 0, true⟩
  | some pindexPrev =>
    if pindexPrev.nHeight = 0 then ⟨true, literal.toNat, true⟩
    else
      match (pindexPrev.ancestors m).find? fun p => p.pprev.isNone || p.generatedStakeModifier with
      | none => ⟨false, 0, false⟩
      | some p =>
        if !p.generatedStakeModifier then ⟨false, 0, false⟩
        else
          let nStakeModifier := p.getStakeModifierV1
          if p.getBlockTime / MODIFIER_INTERVAL ≥ pindexPrev.getBlockTime / MODIFIER_INTERVAL then
            ⟨true, nStakeModifier, false⟩
          else
            let vSortedByTimestamp := sortedByTimestamp (modifierCandidates m pindexPrev)
            match selectionRounds H params m vSortedByTimestamp nStakeModifier
                (min 64 vSortedByTimestamp.length) 0 (selectionIntervalStart pindexPrev) [] 0 with
            | none => ⟨false, nStakeModifier, false⟩
            | some nStakeModifierNew => ⟨true, nStakeModifierNew, true⟩

namespace CBlockIndex

/-- `SetNewStakeModifier()`: entropy bit and V1 modifier. Where `ComputeNextStakeModifier`
returns `false` this only logs and uses the values set so far. -/
def setNewStakeModifierV1 (literal : UInt64) (m : BlockMap) (p : CBlockIndex) : CBlockIndex :=
  let next := computeNextStakeModifier H params literal m (p.prev m)
  { p with
    fStakeEntropy := p.fStakeEntropy || p.getStakeEntropyBit == 1
    vStakeModifier := Bytes.ofNatLE 8 next.nStakeModifier
    fStakeModifier := p.fStakeModifier || next.fGeneratedStakeModifier }

/-- `SetNewStakeModifier(const uint256& prevoutId)`: the V2 modifier, chained to that of
the parent. -/
def setNewStakeModifierV2 (prevoutId : Uint256) (p pprev : CBlockIndex) : CBlockIndex :=
  { p with
    vStakeModifier :=
      (H.hash (prevoutId.toBytes ++ pprev.getStakeModifierV2.toBytes)).toBytes }

end CBlockIndex

/-- The staked output's transaction id that `AddToBlockIndex` reads,
`block.vtx[1]->vin[0].prevout.hash`, without checking that the elements exist. -/
def stakePrevoutHash (block : CBlock) : Result Uint256 :=
  match block.vtx with
  | _ :: tx :: _ =>
    match tx.vin with
    | i :: _ => .ok i.prevout.hash
    | [] => .error (.outOfBounds "block.vtx[1]->vin[0]")
  | _ => .error (.outOfBounds "block.vtx[1]")

/-- The entry `AddToBlockIndex` builds for a block whose hash is not in the map; `m` already
holds a bare entry for it. -/
def newBlockIndex (literal : UInt64) (m : BlockMap) (hash : Uint256) (block : CBlock) :
    Result CBlockIndex :=
  let pindexNew := CBlockIndex.ofBlock hash block
  match m.lookup block.hashPrevBlock with
  | none => .ok pindexNew
  | some pprev =>
    let pindexNew :=
      { pindexNew with pprev := some block.hashPrevBlock, nHeight := pprev.nHeight + 1 }
    if !params.consensus.networkUpgradeActive pindexNew.nHeight .upgradePos then
      .ok (pindexNew.setNewStakeModifierV1 H params literal m)
    else
      match stakePrevoutHash block with
      | .error e => .error e
      | .ok prevoutId => .ok (pindexNew.setNewStakeModifierV2 H prevoutId pprev)

/-- The last steps of `AddToBlockIndex` on a new entry: `nTimeMax`, `nChainWork` and the
validity level. -/
def CBlockIndex.finish (m : BlockMap) (p : CBlockIndex) : CBlockIndex :=
  { p with
    nTimeMax := ((p.prev m).map fun q => max q.nTimeMax p.nTime).getD p.nTime
    nChainWork :=
      (((p.prev m).map CBlockIndex.nChainWork).getD BaseUint.zero).add (getBlockProof p.nBits)
    nStatus := p.nStatus.raise BlockStatus.BLOCK_VALID_TREE }

/-- `AddToBlockIndex`: the tree and the entry of the block. -/
def addToBlockIndex (literal : UInt64) (t : BlockTree) (block : CBlock) :
    Result (BlockTree × CBlockIndex) :=
  let hash := block.getHash H
  match t.mapBlockIndex.lookup hash with
  | some pindex => .ok (t, pindex)
  | none =>
    let m := t.mapBlockIndex.insert hash (CBlockIndex.ofBlock hash block)
    match newBlockIndex H params literal m hash block with
    | .error e => .error e
    | .ok pindexNew =>
      let pindexNew := pindexNew.finish m
      let better :=
        match t.pindexBestHeader.bind t.mapBlockIndex.lookup with
        | none => true
        | some best => best.nChainWork.lt pindexNew.nChainWork
      .ok ({ mapBlockIndex := m.insert hash pindexNew
             pindexBestHeader := if better then some hash else t.pindexBestHeader }, pindexNew)

/-! ## What `AddToBlockIndex` can do -/

section AddToBlockIndex

open CBlockIndex

variable {H params} {a : UInt64} {t t' : BlockTree} {block : CBlock}

/-- The height of the entry a step adds. -/
theorem newBlockIndex_nHeight {m : BlockMap} {hash : Uint256} {p : CBlockIndex}
    (h : newBlockIndex H params a m hash block = .ok p) :
    p.nHeight = ((m.lookup block.hashPrevBlock).map fun q => q.nHeight + 1).getD 0 := by
  unfold newBlockIndex at h
  cases hprev : m.lookup block.hashPrevBlock with
  | none =>
    simp only [hprev, Except.ok.injEq] at h
    simp [← h, ofBlock]
  | some q =>
    simp only [hprev] at h
    split at h
    · simp only [Except.ok.injEq] at h
      simp [← h, setNewStakeModifierV1]
    · split at h
      · cases h
      · simp only [Except.ok.injEq] at h
        simp [← h, setNewStakeModifierV2]

/-- **What `AddToBlockIndex` can do.** A known hash changes nothing; otherwise exactly one
entry is added, at the height above its parent's, or at height 0 without a parent. -/
theorem addToBlockIndex_cases {p : CBlockIndex}
    (h : addToBlockIndex H params a t block = .ok (t', p)) :
    (t.mapBlockIndex.lookup (block.getHash H) = some p ∧ t' = t) ∨
    (t.mapBlockIndex.lookup (block.getHash H) = none ∧
      ∃ q, newBlockIndex H params a (t.mapBlockIndex.insert (block.getHash H)
          (ofBlock (block.getHash H) block)) (block.getHash H) block = .ok q ∧
        p.nHeight = q.nHeight ∧ p.vStakeModifier = q.vStakeModifier ∧
        ∀ hash, t'.mapBlockIndex.lookup hash =
          if hash = block.getHash H then some p else t.mapBlockIndex.lookup hash) := by
  unfold addToBlockIndex at h
  cases hfind : t.mapBlockIndex.lookup (block.getHash H) with
  | some q =>
    simp only [hfind, Except.ok.injEq, Prod.mk.injEq] at h
    exact .inl ⟨by rw [h.2], h.1.symm⟩
  | none =>
    simp only [hfind] at h
    split at h
    · cases h
    · rename_i q hq
      obtain ⟨rfl, rfl⟩ := h
      refine .inr ⟨rfl, q, hq, rfl, rfl, fun hash => ?_⟩
      by_cases hh : hash = block.getHash H
      · subst hh
        rw [if_pos rfl, AList.lookup_insert]
      · rw [if_neg hh, AList.lookup_insert_ne hh, AList.lookup_insert_ne hh]

end AddToBlockIndex

end Passion
