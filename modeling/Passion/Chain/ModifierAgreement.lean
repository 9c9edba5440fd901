import Passion.Chain.StakeModifier
import Passion.Common.Stateful
import Passion.Staking.Kernel

/-!
# Do two nodes agree on the stake modifiers?

Two nodes that add the same blocks run the same code, each in its own address space. The address of
the string literal enters the modifier of a block only if the parent of the block is a root of the
index and proof of stake is not active at height 1; from there every later modifier is computed from
it. So two nodes agree whatever the addresses exactly if no such block is added.
-/

namespace Passion

open List AList CBlockIndex Option Except

variable (H : Hashing) (params : CChainParams)

/-- The empty block tree. -/
def BlockTree.empty : BlockTree := ⟨∅, none⟩

/-- `AddToBlockIndex` for each block in turn. -/
def addBlocks (literal : UInt64) : BlockTree → List CBlock → Result BlockTree
  | t, [] => .ok t
  | t, block :: blocks =>
    match addToBlockIndex H params literal t block with
    | .error e => .error e
    | .ok (t', _) => addBlocks literal t' blocks

variable {H params}
variable {a b : UInt64} {t t' t₁ t₂ : BlockTree} {block : CBlock} {pre blocks : List CBlock}

/-! ## What a run does to the index -/

variable {hash : Uint256} {p : CBlockIndex}

/-- An entry, once in the map, is never changed by adding blocks. -/
theorem addBlocks_lookup_of_lookup (h : addBlocks H params a t blocks = .ok t')
    (hp : t.mapBlockIndex.lookup hash = some p) : t'.mapBlockIndex.lookup hash = some p := by
  induction blocks generalizing t with
  | nil =>
    simp only [addBlocks, ok.injEq] at h
    rwa [← h]
  | cons block blocks ih =>
    unfold addBlocks at h
    split at h
    · cases h
    · rename_i t₁ q hstep
      refine ih h ?_
      rcases addToBlockIndex_cases hstep with ⟨-, rfl⟩ | ⟨hnone, -, -, -, -, hlook⟩
      · exact hp
      · rw [hlook, if_neg, hp]
        rintro rfl
        rw [hnone] at hp
        cases hp

theorem addBlocks_append (xs ys : List CBlock) :
    addBlocks H params a t (xs ++ ys) = (addBlocks H params a t xs).bind
      fun t' => addBlocks H params a t' ys := by
  induction xs generalizing t with
  | nil => rfl
  | cons x xs ih =>
    simp only [cons_append, addBlocks]
    split
    · rfl
    · exact ih

/-! ## Roots -/

/-- The hashes of a list of blocks. -/
def hashes (H : Hashing) (blocks : List CBlock) : List Uint256 := blocks.map (CBlock.getHash H)

/-- `hash` is a root after adding `blocks`: the first block with this hash came without its
parent. -/
def IsRoot (H : Hashing) (blocks : List CBlock) (hash : Uint256) : Prop :=
  ∃ pre g post, blocks = pre ++ g :: post ∧ g.getHash H = hash ∧ hash ∉ hashes H pre ∧
    g.hashPrevBlock ∉ hashes H pre

/-- Some block of the sequence is new when it is added and its parent is a root. -/
def BuildsOnRoot (H : Hashing) (blocks : List CBlock) : Prop :=
  ∃ pre child post, blocks = pre ++ child :: post ∧ child.getHash H ∉ hashes H pre ∧
    IsRoot H pre child.hashPrevBlock

theorem IsRoot.mem_hashes (h : IsRoot H blocks hash) : hash ∈ hashes H blocks := by
  obtain ⟨pre, g, post, rfl, rfl, -, -⟩ := h
  simp [hashes]

/-- Adding one more block makes at most its own hash a root. -/
theorem isRoot_snoc_iff :
    IsRoot H (blocks ++ [block]) hash ↔ IsRoot H blocks hash ∨
      (block.getHash H = hash ∧ hash ∉ hashes H blocks ∧ block.hashPrevBlock ∉ hashes H blocks) := by
  constructor
  · rintro ⟨pre, g, post, heq, hg, hnew, hprev⟩
    rcases eq_nil_or_concat post with rfl | ⟨post', x, rfl⟩
    · obtain ⟨rfl, hx⟩ := append_inj' heq rfl
      cases hx
      exact .inr ⟨hg, hnew, hprev⟩
    · rw [concat_eq_append, ← cons_append, ← append_assoc] at heq
      obtain ⟨rfl, -⟩ := append_inj' heq rfl
      exact .inl ⟨pre, g, post', rfl, hg, hnew, hprev⟩
  · rintro (⟨pre, g, post, rfl, hg, hnew, hprev⟩ | ⟨hg, hnew, hprev⟩)
    · exact ⟨pre, g, post ++ [block], by simp, hg, hnew, hprev⟩
    · exact ⟨blocks, block, [], rfl, hg, hnew, hprev⟩

/-- What the tree knows about the blocks that were added: which hashes it holds, and that
the roots are the entries of height 0. -/
structure Tracks (H : Hashing) (blocks : List CBlock) (t : BlockTree) : Prop where
  known : ∀ hash, (t.mapBlockIndex.lookup hash).isSome ↔ hash ∈ hashes H blocks
  nonneg : ∀ hash p, t.mapBlockIndex.lookup hash = some p → 0 ≤ p.nHeight
  root : ∀ hash p, t.mapBlockIndex.lookup hash = some p → (p.nHeight = 0 ↔ IsRoot H blocks hash)

theorem Tracks.empty : Tracks H [] .empty where
  known hash := by simp [BlockTree.empty, hashes]
  nonneg hash p h := by simp [BlockTree.empty] at h
  root hash p h := by simp [BlockTree.empty] at h

/-- One step keeps the tree in line with the blocks. -/
theorem Tracks.step (ht : Tracks H blocks t) (hself : block.hashPrevBlock ≠ block.getHash H)
    (h : addToBlockIndex H params a t block = .ok (t', p)) : Tracks H (blocks ++ [block]) t' := by
  rcases addToBlockIndex_cases h with ⟨hfind, rfl⟩ | ⟨hnone, q, hq, hheight, -, hlook⟩
  · have hmem : block.getHash H ∈ hashes H blocks := (ht.known _).mp (by simp [hfind])
    refine ⟨fun hash => ?_, ht.nonneg, fun hash p' hp' => ?_⟩
    · rw [ht.known, hashes, hashes, map_append, mem_append]
      refine ⟨Or.inl, Or.rec id fun hx => ?_⟩
      rw [map_singleton, mem_singleton] at hx
      rwa [hx]
    · rw [ht.root hash p' hp', isRoot_snoc_iff, or_iff_left]
      rintro ⟨rfl, hnew, -⟩
      exact hnew hmem
  · have hnew : block.getHash H ∉ hashes H blocks := by
      rw [← ht.known, hnone]; simp
    have hqh := newBlockIndex_nHeight hq
    rw [lookup_insert_ne hself, ← hheight] at hqh
    have hroot : p.nHeight = 0 ∧ block.hashPrevBlock ∉ hashes H blocks ∨
        0 < p.nHeight ∧ block.hashPrevBlock ∈ hashes H blocks := by
      rw [hqh, ← ht.known]
      cases hprev : t.mapBlockIndex.lookup block.hashPrevBlock with
      | none => simp
      | some r =>
        have := ht.nonneg _ _ hprev
        simp only [map_some, getD_some]
        exact .inr ⟨by omega, rfl⟩
    refine ⟨fun hash => ?_, fun hash p' hp' => ?_, fun hash p' hp' => ?_⟩
    · rw [hlook, hashes]
      by_cases hh : hash = block.getHash H
      · simp [hh]
      · rw [if_neg hh, ht.known]
        simp [hh, hashes]
    · rw [hlook] at hp'
      split at hp'
      · cases hp'
        omega
      · exact ht.nonneg _ _ hp'
    · rw [hlook] at hp'
      split at hp'
      · next hh =>
        cases hp'
        subst hh
        rw [isRoot_snoc_iff, or_iff_right fun hr => hnew hr.mem_hashes]
        rcases hroot with ⟨h0, hno⟩ | ⟨hpos, hmem⟩
        · simp [h0, hnew, hno]
        · exact ⟨fun h0 => by omega, fun hc => absurd hmem hc.2.2⟩
      · next hh =>
        rw [ht.root hash p' hp', isRoot_snoc_iff, or_iff_left]
        rintro ⟨rfl, -⟩
        exact hh rfl

/-- A whole run keeps the tree in line with the blocks. -/
theorem Tracks.run (ht : Tracks H pre t)
    (hself : ∀ block ∈ blocks, block.hashPrevBlock ≠ block.getHash H)
    (h : addBlocks H params a t blocks = .ok t') : Tracks H (pre ++ blocks) t' := by
  induction blocks generalizing pre t with
  | nil =>
    simp only [addBlocks, ok.injEq] at h
    rwa [append_nil, ← h]
  | cons block blocks ih =>
    unfold addBlocks at h
    split at h
    · cases h
    · rename_i t₁ q hstep
      rw [show pre ++ block :: blocks = (pre ++ [block]) ++ blocks by simp]
      exact ih (ht.step (hself block (mem_cons_self ..)) hstep)
        (fun x hx => hself x (mem_cons_of_mem _ hx)) h

/-! ## Where the address enters -/

variable {m : BlockMap}

/-- The address does not matter for a block whose parent is above height 0, or under proof
of stake. -/
theorem newBlockIndex_congr (h : ∀ q, m.lookup block.hashPrevBlock = some q → q.nHeight = 0 →
      params.consensus.networkUpgradeActive 1 .upgradePos = true) :
    newBlockIndex H params a m hash block = newBlockIndex H params b m hash block := by
  unfold newBlockIndex
  cases hprev : m.lookup block.hashPrevBlock with
  | none => rfl
  | some q =>
    dsimp only
    split
    · rename_i hinactive
      have hne : q.nHeight ≠ 0 := by
        intro h0
        rw [h0, Int.zero_add, h q hprev h0] at hinactive
        cases hinactive
      simp only [setNewStakeModifierV1, CBlockIndex.prev, bind_some, hprev,
        computeNextStakeModifier, if_neg hne]
    · rfl

theorem addToBlockIndex_congr (hself : block.hashPrevBlock ≠ block.getHash H)
    (h : t.mapBlockIndex.lookup (block.getHash H) = none →
      ∀ q, t.mapBlockIndex.lookup block.hashPrevBlock = some q → q.nHeight = 0 →
      params.consensus.networkUpgradeActive 1 .upgradePos = true) :
    addToBlockIndex H params a t block = addToBlockIndex H params b t block := by
  unfold addToBlockIndex
  dsimp only
  split
  · rfl
  · rename_i hnone
    rw [newBlockIndex_congr]
    intro q hq
    rw [lookup_insert_ne hself] at hq
    exact h hnone q hq

/-- **Without a child of a root the runs are the same run.** -/
theorem addBlocks_congr (ht : Tracks H pre t)
    (hself : ∀ block ∈ blocks, block.hashPrevBlock ≠ block.getHash H)
    (hno : params.consensus.networkUpgradeActive 1 .upgradePos = true ∨
      ¬ BuildsOnRoot H (pre ++ blocks)) :
    addBlocks H params a t blocks = addBlocks H params b t blocks := by
  induction blocks generalizing pre t with
  | nil => rfl
  | cons block blocks ih =>
    have hs := hself block (mem_cons_self ..)
    have hstep : addToBlockIndex H params a t block = addToBlockIndex H params b t block := by
      refine addToBlockIndex_congr hs fun hnone q hq h0 => hno.resolve_right fun hbr => hbr ?_
      have hnew : block.getHash H ∉ hashes H pre := by rw [← ht.known, hnone]; simp
      exact ⟨pre, block, blocks, rfl, hnew, (ht.root _ _ hq).mp h0⟩
    unfold addBlocks
    rw [hstep]
    split
    · rfl
    · rename_i t₁ q hstep'
      refine ih (ht.step hs hstep') (fun x hx => hself x (mem_cons_of_mem _ hx)) ?_
      rwa [show pre ++ [block] ++ blocks = pre ++ block :: blocks by simp]

/-- The child of a root gets the address as its modifier. -/
theorem newBlockIndex_vStakeModifier_of_root {p q : CBlockIndex}
    (hq : m.lookup block.hashPrevBlock = some q) (h0 : q.nHeight = 0)
    (hpos : params.consensus.networkUpgradeActive 1 .upgradePos = false)
    (h : newBlockIndex H params a m hash block = .ok p) :
    p.vStakeModifier = Bytes.ofNatLE 8 a.toNat := by
  unfold newBlockIndex at h
  simp only [hq, h0, Int.zero_add, hpos, Bool.not_false, if_true, ok.injEq] at h
  rw [← h]
  simp only [setNewStakeModifierV1, CBlockIndex.prev, bind_some, hq, computeNextStakeModifier,
    if_pos h0]

/-! ## Runs with different addresses have the same shape -/

/-- Two trees hold the same hashes at the same heights. -/
def SameShape (t₁ t₂ : BlockTree) : Prop :=
  ∀ hash, (t₁.mapBlockIndex.lookup hash).map nHeight = (t₂.mapBlockIndex.lookup hash).map nHeight

/-- Whether a new entry can be built depends on the block and its parent's height only. -/
theorem newBlockIndex_isOk_iff :
    (∃ p, newBlockIndex H params a m hash block = .ok p) ↔
      ∀ height, (m.lookup block.hashPrevBlock).map nHeight = some height →
        params.consensus.networkUpgradeActive (height + 1) .upgradePos = true →
        ∃ prevoutId, stakePrevoutHash block = .ok prevoutId := by
  unfold newBlockIndex
  cases hprev : m.lookup block.hashPrevBlock with
  | none => simp
  | some q =>
    simp only [map_some, some.injEq, forall_eq']
    cases hact : params.consensus.networkUpgradeActive (q.nHeight + 1) .upgradePos with
    | false => simp
    | true =>
      cases hread : stakePrevoutHash block with
      | error e => simp
      | ok prevoutId => simp

theorem SameShape.step (hshape : SameShape t₁ t₂) (hself : block.hashPrevBlock ≠ block.getHash H)
    (h : addToBlockIndex H params a t₁ block = .ok (t', p)) :
    ∃ t₂' p', addToBlockIndex H params b t₂ block = .ok (t₂', p') ∧ SameShape t' t₂' := by
  have hs := hshape (block.getHash H)
  rcases addToBlockIndex_cases h with ⟨hfind, rfl⟩ | ⟨hnone, q, hq, hheight, -, hlook⟩
  · rw [hfind] at hs
    obtain ⟨p', hp', -⟩ := map_eq_some_iff.mp hs.symm
    exact ⟨t₂, p', by simp [addToBlockIndex, hp'], hshape⟩
  · have hnone₂ : t₂.mapBlockIndex.lookup (block.getHash H) = none := by
      rw [hnone] at hs
      simpa using hs.symm
    have hprev := hshape block.hashPrevBlock
    obtain ⟨q₂, hq₂⟩ : ∃ q₂, newBlockIndex H params b (t₂.mapBlockIndex.insert (block.getHash H)
        (ofBlock (block.getHash H) block)) (block.getHash H) block = .ok q₂ := by
      rw [newBlockIndex_isOk_iff, lookup_insert_ne hself, ← hprev, ← lookup_insert_ne hself,
        ← newBlockIndex_isOk_iff]
      exact ⟨q, hq⟩
    obtain ⟨t₂', p₂, hadd⟩ : ∃ t₂' p₂, addToBlockIndex H params b t₂ block = .ok (t₂', p₂) := by
      simp only [addToBlockIndex, hnone₂, hq₂]
      exact ⟨_, _, rfl⟩
    refine ⟨t₂', p₂, hadd, fun hash => ?_⟩
    rcases addToBlockIndex_cases hadd with ⟨hfind, -⟩ | ⟨-, q₂', hq₂', hheight₂, -, hlook₂⟩
    · rw [hnone₂] at hfind
      cases hfind
    · rw [hlook, hlook₂]
      by_cases hh : hash = block.getHash H
      · rw [if_pos hh, if_pos hh, map_some, map_some, hheight, hheight₂,
          newBlockIndex_nHeight hq, newBlockIndex_nHeight hq₂', lookup_insert_ne hself,
          lookup_insert_ne hself]
        have hmap := congrArg (Option.map (· + 1)) hprev
        rw [Option.map_map, Option.map_map] at hmap
        exact congrArg (fun o => some (o.getD 0)) hmap
      · rw [if_neg hh, if_neg hh]
        exact hshape hash

/-- A run that goes through with one address goes through with every other. -/
theorem SameShape.run (hshape : SameShape t₁ t₂)
    (hself : ∀ block ∈ blocks, block.hashPrevBlock ≠ block.getHash H)
    (h : addBlocks H params a t₁ blocks = .ok t') :
    ∃ t₂', addBlocks H params b t₂ blocks = .ok t₂' ∧ SameShape t' t₂' := by
  induction blocks generalizing t₁ t₂ with
  | nil =>
    simp only [addBlocks, ok.injEq] at h
    exact ⟨t₂, rfl, h ▸ hshape⟩
  | cons block blocks ih =>
    unfold addBlocks at h
    split at h
    · cases h
    · rename_i t₃ p hstep
      obtain ⟨t₄, p₄, hstep₂, hshape'⟩ :=
        hshape.step (b := b) (hself block (mem_cons_self ..)) hstep
      obtain ⟨t₂', hrun, hfinal⟩ := ih hshape' (fun x hx => hself x (mem_cons_of_mem _ hx)) h
      exact ⟨t₂', by simp [addBlocks, hstep₂, hrun], hfinal⟩

/-! ## Agreement -/

/-- Two nodes agree on the modifier bytes of every block. -/
def ModifiersAgree (t₁ t₂ : BlockTree) : Prop :=
  ∀ hash, (t₁.mapBlockIndex.lookup hash).map vStakeModifier =
    (t₂.mapBlockIndex.lookup hash).map vStakeModifier

/-- Two nodes agree on the kernel hash of every stake input over every parent block, at
every time. -/
def KernelHashesAgree (H : Hashing) (t₁ t₂ : BlockTree) : Prop :=
  ∀ (hashPrev hashFrom : Uint256) (prev₁ prev₂ from₁ from₂ : CBlockIndex),
    t₁.mapBlockIndex.lookup hashPrev = some prev₁ → t₂.mapBlockIndex.lookup hashPrev = some prev₂ →
    t₁.mapBlockIndex.lookup hashFrom = some from₁ → t₂.mapBlockIndex.lookup hashFrom = some from₂ →
    ∀ (output : CTxOut) (outpoint : COutPoint) (nBits nTime : UInt32),
      (CStakeKernel.ofStake prev₁ ⟨output, outpoint, from₁⟩ nBits nTime).getHash H =
        (CStakeKernel.ofStake prev₂ ⟨output, outpoint, from₂⟩ nBits nTime).getHash H

/-- In every pair of runs over the blocks, whatever the addresses, the nodes agree. -/
def RunsAgree (H : Hashing) (params : CChainParams) (blocks : List CBlock) : Prop :=
  ∀ (a b : UInt64) (t₁ t₂ : BlockTree), addBlocks H params a .empty blocks = .ok t₁ →
    addBlocks H params b .empty blocks = .ok t₂ →
    ModifiersAgree t₁ t₂ ∧ KernelHashesAgree H t₁ t₂

/-- The run that adds a child of a root stores the address in its modifier. -/
theorem addBlocks_vStakeModifier_of_root {post : List CBlock} {child : CBlock}
    (hself : ∀ block ∈ pre ++ child :: post, block.hashPrevBlock ≠ block.getHash H)
    (hpos : params.consensus.networkUpgradeActive 1 .upgradePos = false)
    (hnew : child.getHash H ∉ hashes H pre) (hroot : IsRoot H pre child.hashPrevBlock)
    (h : addBlocks H params a .empty (pre ++ child :: post) = .ok t') :
    (t'.mapBlockIndex.lookup (child.getHash H)).map vStakeModifier =
      some (Bytes.ofNatLE 8 a.toNat) := by
  have hsc := hself child (by simp)
  rw [addBlocks_append] at h
  cases hpre : addBlocks H params a .empty pre with
  | error e => rw [hpre] at h; cases h
  | ok t =>
    rw [hpre] at h
    simp only [Except.bind, addBlocks] at h
    have ht : Tracks H pre t := by
      have := Tracks.empty.run (fun x hx => hself x (by simp [hx])) hpre
      simpa using this
    split at h
    · cases h
    · rename_i t₁ p hstep
      have hnone : t.mapBlockIndex.lookup (child.getHash H) = none := by
        rw [← ht.known] at hnew
        simpa using hnew
      obtain ⟨q, hq⟩ : ∃ q, t.mapBlockIndex.lookup child.hashPrevBlock = some q :=
        isSome_iff_exists.mp ((ht.known _).mpr hroot.mem_hashes)
      rcases addToBlockIndex_cases hstep with ⟨hfind, -⟩ | ⟨-, r, hr, -, hmod, hlook⟩
      · rw [hnone] at hfind
        cases hfind
      · have hm := newBlockIndex_vStakeModifier_of_root (by rw [lookup_insert_ne hsc, hq])
          ((ht.root _ _ hq).mpr hroot) hpos hr
        rw [addBlocks_lookup_of_lookup h (by rw [hlook, if_pos rfl]), map_some, hmod, hm]

/-- **When the nodes agree.** Take a sequence of blocks that a node can add. All pairs of
nodes agree on every modifier and every kernel hash exactly if proof of stake is active
from height 1, or no new block of the sequence has a root as its parent. -/
theorem runsAgree_iff (hself : ∀ block ∈ blocks, block.hashPrevBlock ≠ block.getHash H)
    (hrun : ∃ literal tree, addBlocks H params literal .empty blocks = .ok tree) :
    RunsAgree H params blocks ↔
      (params.consensus.networkUpgradeActive 1 .upgradePos = true ∨ ¬ BuildsOnRoot H blocks) := by
  constructor
  · intro hagree
    by_contra hno
    push Not at hno
    obtain ⟨hpos, pre, child, post, rfl, hnew, hroot⟩ := hno
    rw [ne_eq, Bool.not_eq_true] at hpos
    obtain ⟨literal, tree, htree⟩ := hrun
    have hsame : SameShape .empty .empty := fun _ => rfl
    obtain ⟨t₁, h₁, -⟩ := hsame.run hself htree
    obtain ⟨t₂, h₂, -⟩ := hsame.run hself htree
    -- The nodes with the literal at address 0 and at address 1 store these addresses.
    have hm := (hagree 0 1 t₁ t₂ h₁ h₂).1 (child.getHash H)
    rw [addBlocks_vStakeModifier_of_root hself hpos hnew hroot h₁,
      addBlocks_vStakeModifier_of_root hself hpos hnew hroot h₂] at hm
    exact absurd hm (by decide)
  · intro hcond a b t₁ t₂ h₁ h₂
    rw [addBlocks_congr Tracks.empty hself (by simpa using hcond), h₂] at h₁
    cases h₁
    refine ⟨fun _ => rfl, fun hashPrev hashFrom p₁ p₂ f₁ f₂ hp₁ hp₂ hf₁ hf₂ _ _ _ _ => ?_⟩
    rw [hp₁] at hp₂
    rw [hf₁] at hf₂
    cases hp₂
    cases hf₂
    rfl

/-- A hashing for examples: the hash of a version-1 header is its nonce. -/
def nonceHashing : Hashing where
  hash _ := BaseUint.zero
  hashQuark header := BaseUint.ofNat (Bytes.toNatLE (header.drop 76))

/-- A version-1 header with the given parent and nonce, and no transactions. -/
def bareBlock (hashPrevBlock : Uint256) (nNonce : UInt32) : CBlock where
  nVersion := 1
  hashPrevBlock := hashPrevBlock
  hashMerkleRoot := BaseUint.zero
  nTime := 1628165500
  nBits := 0x1e0ffff0
  nNonce := nNonce
  hashFinalSaplingRoot := BaseUint.zero
  vtx := []
  vchBlockSig := []
  fChecked := false

/-- The genesis block, and a block with a stake on top of it. -/
def stakedChain : List CBlock :=
  [bareBlock BaseUint.zero 7, { bareBlock (BaseUint.ofNat 7) 8 with
    vtx := [.coinbase [0x51, 0x00] [], .plain [⟨⟨BaseUint.ofNat 3, 0⟩, [], 0⟩] []] }]

/-- With proof of stake from height 1 the modifier of the second block is chained to that of the
first one, and all nodes agree on it. -/
theorem runsAgree_stakedChain :
    let params := { mainParams with
      consensus := { mainParams.consensus with nActivationHeight := fun _ => 1 } }
    (∃ t, addBlocks nonceHashing params 5 .empty stakedChain = .ok t ∧
      ∃ p, t.mapBlockIndex.lookup (BaseUint.ofNat 8) = some p ∧ p.vStakeModifier.length = 32) ∧
    RunsAgree nonceHashing params stakedChain := by
  intro params
  have hrun : ∃ t, addBlocks nonceHashing params 5 .empty stakedChain = .ok t ∧
      ∃ p, t.mapBlockIndex.lookup (BaseUint.ofNat 8) = some p ∧ p.vStakeModifier.length = 32 := by
    decide +kernel
  have hadds := hrun.imp fun t ht => ht.1
  exact ⟨hrun, (runsAgree_iff (by decide +kernel) ⟨5, hadds⟩).mpr (.inl (by decide))⟩

/-- **The first block of the main network splits the nodes.** After the genesis block and
one block on top of it, the modifier of the latter is the address of the literal. -/
theorem runsAgree_fails_on_first_block :
    ¬ ∀ (H : Hashing) (blocks : List CBlock),
      (∀ block ∈ blocks, block.hashPrevBlock ≠ block.getHash H) →
      (∃ literal tree, addBlocks H mainParams literal .empty blocks = .ok tree) →
      RunsAgree H mainParams blocks := by
  intro hall
  let genesis := bareBlock BaseUint.zero 7
  let child := bareBlock (BaseUint.ofNat 7) 8
  have hself : ∀ block ∈ [genesis] ++ child :: [],
      block.hashPrevBlock ≠ block.getHash nonceHashing := by decide
  obtain ⟨t₁, h₁⟩ : ∃ t₁, addBlocks nonceHashing mainParams 0 .empty ([genesis] ++ child :: [])
      = .ok t₁ := by decide
  obtain ⟨t₂, h₂⟩ : ∃ t₂, addBlocks nonceHashing mainParams 1 .empty ([genesis] ++ child :: [])
      = .ok t₂ := by decide
  have hroot : IsRoot nonceHashing [genesis] child.hashPrevBlock :=
    ⟨[], genesis, [], rfl, by decide, by simp [hashes], by simp [hashes]⟩
  have hm := (hall nonceHashing _ hself ⟨0, t₁, h₁⟩ 0 1 t₁ t₂ h₁ h₂).1 (child.getHash nonceHashing)
  rw [addBlocks_vStakeModifier_of_root hself (by decide) (by decide) hroot h₁,
    addBlocks_vStakeModifier_of_root hself (by decide) (by decide) hroot h₂] at hm
  exact absurd hm (by decide)

end Passion
