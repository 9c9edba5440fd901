import Mathlib.Data.List.AList
import Passion.Primitives.Transaction

/-!
# The block index

`CBlockIndex` of `chain.h` and the map `mapBlockIndex` that holds one entry per known
block. Entries refer to each other by block hash, which is the key of the map, where the
node uses pointers. Left out: the skip-list pointer, which only speeds up the search for
an ancestor, and the file positions.
-/

namespace Passion

/-- `nStatus`: the validity level and the flags of `enum BlockStatus`. -/
structure BlockStatus where
  /-- The bits of `BLOCK_VALID_MASK`. -/
  valid : ℕ
  haveData : Bool
  haveUndo : Bool
  failedValid : Bool
  failedChild : Bool
  deriving DecidableEq

namespace BlockStatus

def BLOCK_VALID_TREE : ℕ := 2
def BLOCK_VALID_TRANSACTIONS : ℕ := 3
def BLOCK_VALID_SCRIPTS : ℕ := 5

/-- The status of a new entry. -/
def none : BlockStatus := ⟨0, false, false, false, false⟩

/-- `nStatus & BLOCK_FAILED_MASK`. -/
def failed (s : BlockStatus) : Bool := s.failedValid || s.failedChild

/-- `RaiseValidity`. -/
def raise (s : BlockStatus) (nUpTo : ℕ) : BlockStatus :=
  if s.failed then s else if s.valid < nUpTo then { s with valid := nUpTo } else s

variable (s : BlockStatus)

theorem raise_eq (nUpTo : ℕ) :
    s.raise nUpTo = { s with valid := if s.failed then s.valid else max s.valid nUpTo } := by
  unfold raise
  split
  · rfl
  · split
    · rw [max_eq_right (by omega)]
    · rw [max_eq_left (by omega)]

@[simp] theorem raise_failed (nUpTo : ℕ) : (s.raise nUpTo).failed = s.failed := by
  rw [raise_eq]
  rfl

@[simp] theorem raise_haveData (nUpTo : ℕ) : (s.raise nUpTo).haveData = s.haveData := by
  rw [raise_eq]

end BlockStatus

/-- `CBlockIndex`. -/
structure CBlockIndex where
  /-- `*phashBlock`. -/
  hashBlock : Uint256
  pprev : Option Uint256
  nHeight : ℤ
  nStatus : BlockStatus
  vStakeModifier : Bytes
  /-- `nFlags & BLOCK_PROOF_OF_STAKE`. -/
  fProofOfStake : Bool
  /-- `nFlags & BLOCK_STAKE_ENTROPY`. -/
  fStakeEntropy : Bool
  /-- `nFlags & BLOCK_STAKE_MODIFIER`. -/
  fStakeModifier : Bool
  nTx : ℕ
  nChainTx : ℕ
  nSaplingValue : ℤ
  nChainSaplingValue : Option ℤ
  nVersion : ℤ
  hashMerkleRoot : Uint256
  hashFinalSaplingRoot : Uint256
  nTime : UInt32
  nBits : UInt32
  nNonce : UInt32
  nTimeMax : UInt32
  nChainWork : Uint256
  nSequenceId : ℕ
  deriving DecidableEq

/-- `BlockMap`. -/
abbrev BlockMap := AList fun _ : Uint256 => CBlockIndex

/-- The block tree: `mapBlockIndex` and `pindexBestHeader`. -/
structure BlockTree where
  mapBlockIndex : BlockMap
  pindexBestHeader : Option Uint256

namespace CBlockIndex

/-- `CBlockIndex(const CBlock&)`, stored under the hash `hash`. -/
def ofBlock (hash : Uint256) (block : CBlock) : CBlockIndex where
  hashBlock := hash
  pprev := none
  nHeight := 0
  nStatus := .none
  vStakeModifier := []
  fProofOfStake := block.isProofOfStake
  fStakeEntropy := false
  fStakeModifier := false
  nTx := 0
  nChainTx := 0
  nSaplingValue := 0
  nChainSaplingValue := none
  nVersion := block.nVersion
  hashMerkleRoot := block.hashMerkleRoot
  hashFinalSaplingRoot := block.hashFinalSaplingRoot
  nTime := block.nTime
  nBits := block.nBits
  nNonce := block.nNonce
  nTimeMax := 0
  nChainWork := BaseUint.zero
  nSequenceId := 0

/-- `GetBlockTime`. -/
def getBlockTime (p : CBlockIndex) : ℤ := p.nTime.toNat

/-- `IsProofOfStake`. -/
def isProofOfStake (p : CBlockIndex) : Bool := p.fProofOfStake

/-- `GeneratedStakeModifier`. -/
def generatedStakeModifier (p : CBlockIndex) : Bool := p.fStakeModifier

/-- `GetStakeEntropyBit`. -/
def getStakeEntropyBit (p : CBlockIndex) : ℕ := p.hashBlock.getLow64 % 2

/-- `pindex->pprev`, resolved in the map. -/
def prev (m : BlockMap) (p : CBlockIndex) : Option CBlockIndex := p.pprev.bind m.lookup

/-- The entries met by following `pprev` at most `n` times. -/
def walkBack (m : BlockMap) : ℕ → CBlockIndex → List CBlockIndex
  | 0, p => [p]
  | n + 1, p =>
    match p.prev m with
    | none => [p]
    | some q => p :: walkBack m n q

/-- The entry and all its ancestors: heights fall by one along `pprev`, so the height
bounds the walk. -/
def ancestors (m : BlockMap) (p : CBlockIndex) : List CBlockIndex :=
  walkBack m p.nHeight.toNat p

/-- `GetStakeModifierV1`: the stored bytes copied into a 64-bit integer. -/
def getStakeModifierV1 (p : CBlockIndex) : ℕ := Bytes.toNatLE p.vStakeModifier

/-- `GetStakeModifierV2`: the stored bytes copied into a zeroed `uint256`. -/
def getStakeModifierV2 (p : CBlockIndex) : Uint256 :=
  BaseUint.ofNat (Bytes.toNatLE p.vStakeModifier)

end CBlockIndex

/-! ## The tree of index entries

Every entry of `mapBlockIndex` but the root has its parent in the map, one height below. The walk
along `pprev` then meets exactly the ancestors, and facts about an entry follow from those about its
parent. Functions of the node change entries in place and leave the tree as it is.
-/

open List AList

namespace BlockMap

/-- The entry of a block is changed in place, if there is one. -/
def modify (m : BlockMap) (hash : Uint256) (f : CBlockIndex → CBlockIndex) : BlockMap :=
  match m.lookup hash with
  | none => m
  | some p => m.insert hash (f p)

/-- All entries are changed in place. -/
def mapEntries (m : BlockMap) (f : CBlockIndex → CBlockIndex) : BlockMap where
  entries := m.entries.map fun e => ⟨e.1, f e.2⟩
  nodupKeys := by
    have h := List.map₂_keys (fun _ => f) m.entries
    rw [List.NodupKeys]
    exact h ▸ m.nodupKeys

@[simp] theorem lookup_modify (m : BlockMap) (hash k : Uint256) (f : CBlockIndex → CBlockIndex) :
    (m.modify hash f).lookup k = if k = hash then (m.lookup k).map f else m.lookup k := by
  unfold modify
  split
  · rename_i hnone
    split
    · rename_i heq
      rw [heq, hnone]
      rfl
    · rfl
  · rename_i p hp
    split
    · rename_i heq
      rw [heq, hp, lookup_insert]
      rfl
    · rename_i hne
      rw [lookup_insert_ne hne]

@[simp] theorem lookup_mapEntries (m : BlockMap) (f : CBlockIndex → CBlockIndex) (k : Uint256) :
    (m.mapEntries f).lookup k = (m.lookup k).map f :=
  dlookup_map₂ (f := fun _ => f) k

/-- **The entries form a tree.** -/
structure IsTree (m : BlockMap) : Prop where
  /-- An entry is stored under its hash. -/
  key : ∀ {hash p}, m.lookup hash = some p → p.hashBlock = hash
  root : ∀ {hash p}, m.lookup hash = some p → p.pprev = none → p.nHeight = 0
  parent : ∀ {hash p hashPrev}, m.lookup hash = some p → p.pprev = some hashPrev →
    ∃ q, m.lookup hashPrev = some q ∧ p.nHeight = q.nHeight + 1
  nonneg : ∀ {hash p}, m.lookup hash = some p → 0 ≤ p.nHeight

end BlockMap

open CBlockIndex

namespace BlockMap.IsTree

variable {m : BlockMap} {hash hashPrev : Uint256} {p q : CBlockIndex}
variable (hm : m.IsTree) (hp : m.lookup hash = some p)

include hm hp

theorem ancestors_root (hroot : p.pprev = none) : p.ancestors m = [p] := by
  have hheight : p.nHeight.toNat = 0 := by rw [hm.root hp hroot]; rfl
  rw [ancestors, hheight, walkBack]

theorem nHeight_child (hprev : p.pprev = some hashPrev) (hq : m.lookup hashPrev = some q) :
    p.nHeight = q.nHeight + 1 := by
  obtain ⟨q', hq', hheight⟩ := hm.parent hp hprev
  cases hq.symm.trans hq'
  exact hheight

theorem ancestors_child (hprev : p.pprev = some hashPrev) (hq : m.lookup hashPrev = some q) :
    p.ancestors m = p :: q.ancestors m := by
  have hheight := hm.nHeight_child hp hprev hq
  have hnonneg := hm.nonneg hq
  have hsucc : p.nHeight.toNat = q.nHeight.toNat + 1 := by omega
  have hlook : p.prev m = some q := by rw [CBlockIndex.prev, hprev]; exact hq
  rw [ancestors, hsucc, walkBack, hlook, ancestors]

section Sum

variable {M : Type} [AddCommMonoid M] (f : CBlockIndex → M)

theorem sum_root (hroot : p.pprev = none) : ((p.ancestors m).map f).sum = f p := by
  simp [hm.ancestors_root hp hroot]

theorem sum_child (hprev : p.pprev = some hashPrev) (hq : m.lookup hashPrev = some q) :
    ((p.ancestors m).map f).sum = ((q.ancestors m).map f).sum + f p := by
  rw [hm.ancestors_child hp hprev hq, map_cons, sum_cons, add_comm]

end Sum

omit hm hp in
/-- **Induction along the tree**, from the parent to the child. -/
@[elab_as_elim] theorem induction (hm : m.IsTree) {P : CBlockIndex → Prop}
    (hroot : ∀ hash p, m.lookup hash = some p → p.pprev = none → P p)
    (hchild : ∀ hash p hashPrev q, m.lookup hash = some p → p.pprev = some hashPrev →
      m.lookup hashPrev = some q → P q → P p)
    (hp : m.lookup hash = some p) : P p := by
  induction hn : p.nHeight.toNat using Nat.strong_induction_on generalizing hash p with
  | h n ih =>
    cases hprev : p.pprev with
    | none => exact hroot hash p hp hprev
    | some g =>
      obtain ⟨q, hq, hheight⟩ := hm.parent hp hprev
      have hnonneg := hm.nonneg hq
      exact hchild hash p g q hp hprev hq (ih _ (by omega) hq rfl)

/-- Entries with one hash are one entry. -/
theorem eq_of_hashBlock
    (hq : m.lookup hashPrev = some q) (h : p.hashBlock = q.hashBlock) : p = q := by
  rw [hm.key hp, hm.key hq] at h
  rw [h, hq] at hp
  exact (Option.some.inj hp).symm

/-- A property of all ancestors is one of the entry and of all ancestors of its parent. -/
theorem forall_ancestors {P : CBlockIndex → Prop} : (∀ a ∈ p.ancestors m, P a) ↔
      P p ∧ ∀ hashPrev q, p.pprev = some hashPrev → m.lookup hashPrev = some q →
        ∀ a ∈ q.ancestors m, P a := by
  cases hprev : p.pprev with
  | none => simp [hm.ancestors_root hp hprev]
  | some g =>
    obtain ⟨q, hq, -⟩ := hm.parent hp hprev
    rw [hm.ancestors_child hp hprev hq, forall_mem_cons]
    refine and_congr_right fun _ => ⟨fun h g' q' hg hq' => ?_, fun h => h g q rfl hq⟩
    cases hg
    cases hq.symm.trans hq'
    exact h

theorem head?_ancestors : (p.ancestors m).head? = some p := by
  cases hprev : p.pprev with
  | none => rw [hm.ancestors_root hp hprev, head?_cons]
  | some g =>
    obtain ⟨q, hq, -⟩ := hm.parent hp hprev
    rw [hm.ancestors_child hp hprev hq, head?_cons]

theorem self_mem_ancestors : p ∈ p.ancestors m :=
  mem_of_mem_head? (hm.head?_ancestors hp)

/-- An ancestor is an entry of the map, and not above the entry. -/
theorem lookup_and_nHeight_le :
    ∀ a ∈ p.ancestors m, m.lookup a.hashBlock = some a ∧ a.nHeight ≤ p.nHeight := by
  refine hm.induction ?_ ?_ hp
  · intro hash p hp hroot a ha
    rw [hm.ancestors_root hp hroot, mem_singleton] at ha
    rw [ha, hm.key hp]
    exact ⟨hp, le_refl _⟩
  · intro hash p g q hp hprev hq ih a ha
    have hheight := hm.nHeight_child hp hprev hq
    rw [hm.ancestors_child hp hprev hq, mem_cons] at ha
    rcases ha with rfl | ha
    · rw [hm.key hp]
      exact ⟨hp, le_refl _⟩
    · exact ⟨(ih a ha).1, (ih a ha).2.trans (by omega)⟩

variable {a : CBlockIndex}

theorem lookup_ancestor (ha : a ∈ p.ancestors m) : m.lookup a.hashBlock = some a :=
  (hm.lookup_and_nHeight_le hp a ha).1

theorem nHeight_le_of_mem_ancestors (ha : a ∈ p.ancestors m) : a.nHeight ≤ p.nHeight :=
  (hm.lookup_and_nHeight_le hp a ha).2

/-- A child is not among the ancestors of its parent. -/
theorem not_mem_ancestors_parent
    (hprev : p.pprev = some hashPrev) (hq : m.lookup hashPrev = some q) : p ∉ q.ancestors m := by
  intro hin
  have hle := hm.nHeight_le_of_mem_ancestors hq hin
  have hheight := hm.nHeight_child hp hprev hq
  omega

theorem nodup_ancestors : ((p.ancestors m).map (·.hashBlock)).Nodup := by
  refine hm.induction ?_ ?_ hp
  · intro hash p hp hroot
    simp [hm.ancestors_root hp hroot]
  · intro hash p g q hp hprev hq ih
    rw [hm.ancestors_child hp hprev hq, map_cons, nodup_cons]
    refine ⟨fun hin => ?_, ih⟩
    obtain ⟨a, ha, hhash⟩ := mem_map.mp hin
    rw [hm.eq_of_hashBlock (hm.lookup_ancestor hq ha) hp hhash] at ha
    exact hm.not_mem_ancestors_parent hp hprev hq ha

/-- An ancestor of an ancestor is an ancestor. -/
theorem ancestors_subset : a ∈ p.ancestors m → a.ancestors m ⊆ p.ancestors m := by
  refine hm.induction ?_ ?_ hp
  · intro hash p hp hroot ha
    rw [hm.ancestors_root hp hroot, mem_singleton] at ha
    rw [ha]
    exact Subset.refl _
  · intro hash p g q hp hprev hq ih ha
    have hcons := hm.ancestors_child hp hprev hq
    rw [hcons, mem_cons] at ha
    rcases ha with rfl | ha
    · exact Subset.refl _
    · rw [hcons]
      exact Subset.trans (ih ha) (subset_cons_self _ _)

omit hm hp in
/-- The walk only depends on the entries it meets. -/
theorem ancestors_congr {m' : BlockMap} (hm : m.IsTree) (hm' : m'.IsTree)
    (hp : m.lookup hash = some p) :
    (∀ a ∈ p.ancestors m, m'.lookup a.hashBlock = some a) → p.ancestors m' = p.ancestors m := by
  refine hm.induction ?_ ?_ hp
  · intro hash p hp hroot hsame
    have hp' := hsame p (hm.self_mem_ancestors hp)
    rw [hm.ancestors_root hp hroot, hm'.ancestors_root hp' hroot]
  · intro hash p g q hp hprev hq ih hsame
    have hp' := hsame p (hm.self_mem_ancestors hp)
    have hcons := hm.ancestors_child hp hprev hq
    rw [hcons] at hsame
    have hq' := hsame q (mem_cons_of_mem _ (hm.self_mem_ancestors hq))
    rw [hm.key hq] at hq'
    rw [hcons, hm'.ancestors_child hp' hprev hq', ih fun a ha => hsame a (mem_cons_of_mem _ ha)]

/-- A parent is not its own child. -/
theorem parent_ne (hprev : p.pprev = some hashPrev) : hashPrev ≠ hash := by
  rintro rfl
  have hheight := hm.nHeight_child hp hprev hp
  omega

end BlockMap.IsTree

/-! ## Entries changed in place -/

section Rel

variable {m m' : BlockMap} {R : CBlockIndex → CBlockIndex → Prop}

/-- **Entry for entry related**: the two maps have the same keys. -/
def BlockMap.Related (R : CBlockIndex → CBlockIndex → Prop) (m m' : BlockMap) : Prop :=
  ∀ hash, Option.Rel R (m.lookup hash) (m'.lookup hash)

/-- The relation keeps the place in the tree. -/
def KeepsPlace (R : CBlockIndex → CBlockIndex → Prop) : Prop :=
  ∀ p p', R p p' → p'.hashBlock = p.hashBlock ∧ p'.pprev = p.pprev ∧ p'.nHeight = p.nHeight

variable {hash : Uint256} {p p' : CBlockIndex}

theorem BlockMap.Related.lookup (h : m.Related R m')
    (hp : m.lookup hash = some p) : ∃ p', m'.lookup hash = some p' ∧ R p p' := by
  have hrel := h hash
  rw [hp] at hrel
  generalize m'.lookup hash = o' at hrel
  cases hrel with
  | some hR => exact ⟨_, rfl, hR⟩

theorem BlockMap.Related.lookup_right (h : m.Related R m')
    (hp' : m'.lookup hash = some p') : ∃ p, m.lookup hash = some p ∧ R p p' := by
  have hrel := h hash
  rw [hp'] at hrel
  generalize m.lookup hash = o at hrel
  cases hrel with
  | some hR => exact ⟨_, rfl, hR⟩

theorem BlockMap.Related.mono {S : CBlockIndex → CBlockIndex → Prop} (h : m.Related R m')
    (hRS : ∀ {p p'}, R p p' → S p p') : m.Related S m' := fun k =>
  match m.lookup k, m'.lookup k, h k with
  | _, _, .none => .none
  | _, _, .some hR => .some (hRS hR)

theorem BlockMap.Related.refl (hR : ∀ p, R p p) (m : BlockMap) : m.Related R m := fun k =>
  match m.lookup k with
  | none => .none
  | some p => .some (hR p)

theorem BlockMap.related_insert (hR : ∀ p, R p p)
    (hp : m.lookup hash = some p) (hpp : R p p') : m.Related R (m.insert hash p') := by
  intro k
  by_cases hk : k = hash
  · rw [hk, lookup_insert, hp]
    exact .some hpp
  · rw [lookup_insert_ne hk]
    exact BlockMap.Related.refl hR m k

theorem BlockMap.Related.isTree (h : m.Related R m') (hR : KeepsPlace R) (hm : m.IsTree) :
    m'.IsTree where
  key := by
    intro hash p' hp'
    obtain ⟨p, hp, hpp⟩ := h.lookup_right hp'
    rw [(hR p p' hpp).1, hm.key hp]
  root := by
    intro hash p' hp' hroot
    obtain ⟨p, hp, hpp⟩ := h.lookup_right hp'
    obtain ⟨-, hprev, hheight⟩ := hR p p' hpp
    rw [hheight, hm.root hp (hprev ▸ hroot)]
  parent := by
    intro hash p' g hp' hprev'
    obtain ⟨p, hp, hpp⟩ := h.lookup_right hp'
    obtain ⟨-, hprev, hheight⟩ := hR p p' hpp
    obtain ⟨q, hq, hq1⟩ := hm.parent hp (hprev ▸ hprev')
    obtain ⟨q', hq', hqq⟩ := h.lookup hq
    exact ⟨q', hq', by rw [hheight, (hR q q' hqq).2.2, hq1]⟩
  nonneg := by
    intro hash p' hp'
    obtain ⟨p, hp, hpp⟩ := h.lookup_right hp'
    rw [(hR p p' hpp).2.2]
    exact hm.nonneg hp

/-- The ancestors of related entries are related, one by one. -/
theorem BlockMap.Related.ancestors (h : m.Related R m') (hR : KeepsPlace R) (hm : m.IsTree)
    (hp : m.lookup hash = some p)
    (hp' : m'.lookup hash = some p') : List.Forall₂ R (p.ancestors m) (p'.ancestors m') := by
  have hm' := h.isTree hR hm
  rw [← hm.key hp] at hp'
  revert p'
  refine @(hm.induction ?_ ?_ hp)
  · intro hash p hp hroot p' hp'
    rw [hm.key hp] at hp'
    obtain ⟨p'', hp'', hpp⟩ := h.lookup hp
    cases hp'.symm.trans hp''
    have hroot' : p'.pprev = none := by rw [(hR p p' hpp).2.1, hroot]
    rw [hm.ancestors_root hp hroot, hm'.ancestors_root hp' hroot']
    exact .cons hpp .nil
  · intro hash p g q hp hprev hq ih p' hp'
    rw [hm.key hp] at hp'
    obtain ⟨p'', hp'', hpp⟩ := h.lookup hp
    cases hp'.symm.trans hp''
    have hprev' : p'.pprev = some g := by rw [(hR p p' hpp).2.1, hprev]
    obtain ⟨q', hq', -⟩ := h.lookup hq
    rw [hm.ancestors_child hp hprev hq, hm'.ancestors_child hp' hprev' hq']
    exact .cons hpp (ih (by rw [hm.key hq, hq']))

variable {f : CBlockIndex → CBlockIndex}

theorem BlockMap.related_of_map (hmap : ∀ hash, m'.lookup hash = (m.lookup hash).map f) :
    m.Related (fun p p' => p' = f p) m' := by
  intro k
  rw [hmap k]
  cases m.lookup k with
  | none => exact .none
  | some q => exact .some rfl

/-- Where the entries are changed by a function, so are the ancestors. -/
theorem BlockMap.IsTree.ancestors_map (hm : m.IsTree) (hf : KeepsPlace fun p p' => p' = f p)
    (hmap : ∀ hash, m'.lookup hash = (m.lookup hash).map f)
    (hp : m.lookup hash = some p) : (f p).ancestors m' = (p.ancestors m).map f := by
  have hrel := related_of_map hmap
  have hp' : m'.lookup hash = some (f p) := by rw [hmap, hp]; rfl
  have hall := hrel.ancestors hf hm hp hp'
  rw [← forall₂_eq_eq_eq, forall₂_map_right_iff]
  exact hall.flip

/-- An entry changed where it stands. -/
def changeAt (hash : Uint256) (f : CBlockIndex → CBlockIndex) (p : CBlockIndex) : CBlockIndex :=
  if p.hashBlock = hash then f p else p

theorem changeAt_of_ne (h : p.hashBlock ≠ hash) : changeAt hash f p = p := if_neg h

theorem changeAt_self (p : CBlockIndex) : changeAt p.hashBlock f p = f p := if_pos rfl

/-- What the function keeps is kept. -/
theorem apply_changeAt {α : Type} {g : CBlockIndex → α} (h : ∀ p, g (f p) = g p) (hash : Uint256)
    (p : CBlockIndex) : g (changeAt hash f p) = g p := by
  unfold changeAt
  split
  · exact h p
  · rfl

theorem KeepsPlace.changeAt (hf : KeepsPlace fun p p' => p' = f p) (hash : Uint256) :
    KeepsPlace fun p p' => p' = changeAt hash f p := by
  rintro p _ rfl
  unfold Passion.changeAt
  split
  · exact hf p _ rfl
  · exact ⟨rfl, rfl, rfl⟩

/-- Storing a changed entry changes it where it stands. -/
theorem BlockMap.IsTree.lookup_insert (hm : m.IsTree)
    (hp : m.lookup hash = some p) (f : CBlockIndex → CBlockIndex) (k : Uint256) :
    (m.insert hash (f p)).lookup k = (m.lookup k).map (changeAt hash f) := by
  by_cases hk : k = hash
  · subst hk
    rw [lookup_insert, hp, Option.map_some, changeAt, if_pos (hm.key hp)]
  · rw [lookup_insert_ne hk]
    cases hq : m.lookup k with
    | none => rfl
    | some q =>
      rw [Option.map_some, changeAt_of_ne]
      rwa [hm.key hq]

/-! ## A new leaf -/

/-- **An entry was added** to the map. -/
structure BlockMap.Extends (m m' : BlockMap) (hash : Uint256) (p : CBlockIndex) : Prop where
  new : m.lookup hash = none
  map : ∀ k, m'.lookup k = if k = hash then some p else m.lookup k

namespace BlockMap.Extends

variable {k : Uint256} {q : CBlockIndex}

variable (h : m.Extends m' hash p)

include h

theorem self : m'.lookup hash = some p := by rw [h.map, if_pos rfl]

theorem keep (hq : m.lookup k = some q) : m'.lookup k = some q := by
  rw [h.map, if_neg, hq]
  rintro rfl
  rw [h.new] at hq
  cases hq

theorem cases (hq : m'.lookup k = some q) : (k = hash ∧ q = p) ∨ m.lookup k = some q := by
  rw [h.map] at hq
  split at hq
  · rename_i hk
    exact .inl ⟨hk, (Option.some.inj hq).symm⟩
  · exact .inr hq

theorem ancestors (hm : m.IsTree) (hm' : m'.IsTree) (hq : m.lookup k = some q) :
    q.ancestors m' = q.ancestors m :=
  hm.ancestors_congr hm' hq fun _ ha => h.keep (hm.lookup_ancestor hq ha)

end BlockMap.Extends

end Rel

end Passion
