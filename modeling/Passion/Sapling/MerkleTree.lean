import Passion.Common.MerkleFrontier
import Passion.Common.Stateful
import Passion.Primitives.Transaction

/-!
# The Sapling note commitment tree

`IncrementalMerkleTree` of `sapling/incrementalmerkletree.h`, at the depth the node uses.
The tree keeps the two youngest leaves and, level by level, the roots of the complete
subtrees to the left of them.
-/

namespace Passion

open List

variable {E : Env} {L : List Uint256}

/-- `INCREMENTAL_MERKLE_TREE_DEPTH` of Sapling. -/
def SAPLING_INCREMENTAL_MERKLE_TREE_DEPTH : ℕ := 32

abbrev FitsTree {α : Type*} (L : List α) : Prop :=
  L.length ≤ 2 ^ SAPLING_INCREMENTAL_MERKLE_TREE_DEPTH

/-- `SaplingMerkleTree`. -/
structure SaplingMerkleTree where
  left : Option Uint256
  right : Option Uint256
  parents : List (Option Uint256)
  deriving DecidableEq

namespace SaplingMerkleTree

/-- `SaplingMerkleTree()`. -/
def empty : SaplingMerkleTree := ⟨none, none, []⟩

/-- `empty_root()`. -/
def emptyRoot (E : Env) : Uint256 := E.pedersenEmptyRoot SAPLING_INCREMENTAL_MERKLE_TREE_DEPTH

/-- `is_complete(depth)`. -/
def isComplete (t : SaplingMerkleTree) (depth : ℕ) : Bool :=
  t.left.isSome && t.right.isSome && t.parents.length == depth - 1 && t.parents.all (·.isSome)

/-- The loop of `append` over the parents: `combined` climbs from level `i`, through the
levels that are taken, and stays in the first one that is free. -/
def propagate (E : Env) (combined : Uint256) (i : ℕ) :
    List (Option Uint256) → List (Option Uint256)
  | [] => if i < SAPLING_INCREMENTAL_MERKLE_TREE_DEPTH then [some combined] else []
  | some p :: ps =>
    if i < SAPLING_INCREMENTAL_MERKLE_TREE_DEPTH then
      none :: propagate E (E.pedersenCombine p combined (i + 1)) (i + 1) ps
    else some p :: ps
  | none :: ps =>
    if i < SAPLING_INCREMENTAL_MERKLE_TREE_DEPTH then some combined :: ps else none :: ps

/-- `append`. -/
def append (E : Env) (t : SaplingMerkleTree) (obj : Uint256) : Result SaplingMerkleTree :=
  if t.isComplete SAPLING_INCREMENTAL_MERKLE_TREE_DEPTH then .error (.exception "tree is full")
  else match t.left, t.right with
    | none, _ => .ok { t with left := some obj }
    | some _, none => .ok { t with right := some obj }
    | some l, some r =>
      .ok ⟨some obj, none, propagate E (E.pedersenCombine l r 0) 0 t.parents⟩

/-- The loop of `root` over the parents, from level `d`. -/
def rootParents (E : Env) (root : Uint256) (d : ℕ) : List (Option Uint256) → Uint256 × ℕ
  | [] => (root, d)
  | some p :: ps => rootParents E (E.pedersenCombine p root d) (d + 1) ps
  | none :: ps => rootParents E (E.pedersenCombine root (E.pedersenEmptyRoot d) d) (d + 1) ps

/-- The last loop of `root`: the `n` levels above the parents. -/
def rootFill (E : Env) (root : Uint256) (d : ℕ) : ℕ → Uint256
  | 0 => root
  | n + 1 => rootFill E (E.pedersenCombine root (E.pedersenEmptyRoot d) d) (d + 1) n

/-- `root()`. -/
def root (E : Env) (t : SaplingMerkleTree) : Uint256 :=
  let combineLeft := t.left.getD (E.pedersenEmptyRoot 0)
  let combineRight := t.right.getD (E.pedersenEmptyRoot 0)
  let (r, d) := rootParents E (E.pedersenCombine combineLeft combineRight 0) 1 t.parents
  rootFill E r d (SAPLING_INCREMENTAL_MERKLE_TREE_DEPTH - d)

/-- Appends a list of leaves in order. -/
def appendAll (E : Env) : SaplingMerkleTree → List Uint256 → Result SaplingMerkleTree
  | t, [] => .ok t
  | t, obj :: objs => (t.append E obj).bind fun t' => appendAll E t' objs

/-! ## Witnesses of note commitments

`IncrementalWitness` of `sapling/incrementalmerkletree.h`: the tree at the time a commitment was
appended to it, and what the commitments after it put into the gaps of its path. Its position is
right below `2 ^ 31` only: `size` computes the sizes of the subtrees in an `int`.
-/

/-- `last()`. -/
def last (t : SaplingMerkleTree) : Result Uint256 :=
  match t.right, t.left with
  | some r, _ => .ok r
  | none, some l => .ok l
  | none, none => .error (.exception "tree has no cursor")

/-- The loop of `size` over the parents. `1 << (i + 1)` is an `int`, added to a `size_t`. -/
def sizeParents : ℕ → List (Option Uint256) → BitVec 64
  | _, [] => 0
  | i, p :: ps =>
    (if p.isSome then (1#32 <<< (i + 1)).signExtend 64 else 0) + sizeParents (i + 1) ps

/-- `size()`. -/
def size (t : SaplingMerkleTree) : BitVec 64 :=
  (if t.left.isSome then 1 else 0) + (if t.right.isSome then 1 else 0) + sizeParents 0 t.parents

/-- The loop of `next_depth` over the parents, from level `d`. -/
def nextDepthParents : ℕ → ℕ → List (Option Uint256) → ℕ
  | d, skip, [] => d + skip
  | d, skip, some _ :: ps => nextDepthParents (d + 1) skip ps
  | d, 0, none :: _ => d
  | d, skip + 1, none :: ps => nextDepthParents (d + 1) skip ps

/-- `next_depth(skip)`. -/
def nextDepth (t : SaplingMerkleTree) (skip : ℕ) : ℕ :=
  if t.left.isNone && skip == 0 then 0
  else
    let skip := if t.left.isNone then skip - 1 else skip
    if t.right.isNone && skip == 0 then 0
    else nextDepthParents 1 (if t.right.isNone then skip - 1 else skip) t.parents

/-- The loop of `root` over the parents, from level `d`, with the hashes of a `PathFiller`. -/
def rootParentsWith (E : Env) : Uint256 → ℕ → List Uint256 → List (Option Uint256) →
    Uint256 × ℕ × List Uint256
  | root, d, filler, [] => (root, d, filler)
  | root, d, filler, some p :: ps =>
    rootParentsWith E (E.pedersenCombine p root d) (d + 1) filler ps
  | root, d, filler, none :: ps =>
    rootParentsWith E (E.pedersenCombine root (filler.headD (E.pedersenEmptyRoot d)) d) (d + 1)
      filler.tail ps

/-- The last loop of `root`: the `n` levels above the parents. -/
def rootFillWith (E : Env) : Uint256 → ℕ → List Uint256 → ℕ → Uint256
  | root, _, _, 0 => root
  | root, d, filler, n + 1 =>
    rootFillWith E (E.pedersenCombine root (filler.headD (E.pedersenEmptyRoot d)) d) (d + 1)
      filler.tail n

/-- `root(depth, filler_hashes)`. -/
def rootWith (E : Env) (t : SaplingMerkleTree) (depth : ℕ) (filler : List Uint256) : Uint256 :=
  let combineLeft := t.left.getD (filler.headD (E.pedersenEmptyRoot 0))
  let filler := if t.left.isSome then filler else filler.tail
  let combineRight := t.right.getD (filler.headD (E.pedersenEmptyRoot 0))
  let filler := if t.right.isSome then filler else filler.tail
  let (r, d, filler) :=
    rootParentsWith E (E.pedersenCombine combineLeft combineRight 0) 1 filler t.parents
  rootFillWith E r d filler (depth - d)

end SaplingMerkleTree

/-- `SaplingWitness`. -/
structure SaplingWitness where
  tree : SaplingMerkleTree
  filled : List Uint256
  cursor : Option SaplingMerkleTree
  cursor_depth : ℕ
  deriving DecidableEq

/-- `witness()`. -/
def SaplingMerkleTree.witness (t : SaplingMerkleTree) : SaplingWitness := ⟨t, [], none, 0⟩

namespace SaplingWitness

/-- `element()`. -/
def element (w : SaplingWitness) : Result Uint256 := w.tree.last

/-- `position()`. -/
def position (w : SaplingWitness) : BitVec 64 := w.tree.size - 1

/-- `partial_path()`. -/
def partialPath (E : Env) (w : SaplingWitness) : List Uint256 :=
  match w.cursor with
  | none => w.filled
  | some cursor => w.filled ++ [cursor.rootWith E w.cursor_depth []]

/-- `root()`. -/
def root (E : Env) (w : SaplingWitness) : Uint256 :=
  w.tree.rootWith E SAPLING_INCREMENTAL_MERKLE_TREE_DEPTH (w.partialPath E)

/-- `append`. -/
def append (E : Env) (w : SaplingWitness) (obj : Uint256) : Result SaplingWitness :=
  match w.cursor with
  | some cursor =>
    (cursor.append E obj).map fun cursor =>
      if cursor.isComplete w.cursor_depth then
        { w with filled := w.filled ++ [cursor.rootWith E w.cursor_depth []], cursor := none }
      else { w with cursor := some cursor }
  | none =>
    let cursor_depth := w.tree.nextDepth w.filled.length
    if SAPLING_INCREMENTAL_MERKLE_TREE_DEPTH ≤ cursor_depth then .error (.exception "tree is full")
    else if cursor_depth = 0 then
      .ok { w with filled := w.filled ++ [obj], cursor_depth := cursor_depth }
    else
      (SaplingMerkleTree.empty.append E obj).map fun cursor =>
        { w with cursor := some cursor, cursor_depth := cursor_depth }

end SaplingWitness

/-! ## The leaves of a tree -/

/-- The hashes of the tree. -/
def Env.nodeHash (E : Env) : NodeHash Uint256 := ⟨E.pedersenCombine, E.pedersenEmptyRoot⟩

/-- **The tree holds the leaves**: the two youngest ones themselves, and the others in complete
subtrees. -/
inductive SaplingMerkleTree.Holds (E : Env) : SaplingMerkleTree → List Uint256 → Prop
  | empty : Holds E ⟨none, none, []⟩ []
  | left {a : Uint256} {ps : List (Option Uint256)} {L : List Uint256}
    (h : E.nodeHash.Covers 1 ps L) : Holds E ⟨some a, none, ps⟩ (L ++ [a])
  | right {a b : Uint256} {ps : List (Option Uint256)} {L : List Uint256}
    (h : E.nodeHash.Covers 1 ps L) : Holds E ⟨some a, some b, ps⟩ (L ++ [a, b])

namespace SaplingMerkleTree

open NodeHash

variable {t : SaplingMerkleTree}

theorem Holds.isComplete_iff (h : t.Holds E L) (k : ℕ) :
    t.isComplete (k + 1) = true ↔ L.length = 2 ^ (k + 1) := by
  cases h with
  | empty =>
    have := Nat.two_pow_pos (k + 1)
    simp [isComplete]
    omega
  | @left a ps L h =>
    have hodd : L.length + 1 ≠ 2 ^ (k + 1) := by
      have := h.two_pow_dvd
      omega
    simpa [isComplete] using hodd
  | @right a b ps L h =>
    have hiff := h.complete_iff (k := k)
    have hexp : 1 + k = k + 1 := by omega
    rw [hexp] at hiff
    simp only [isComplete, Option.isSome_some, Bool.true_and, Bool.and_eq_true, beq_iff_eq,
      Nat.add_sub_cancel, length_append]
    omega

variable {ps : List (Option Uint256)} {i : ℕ}

/-- Below the depth of the tree the loop of `append` has no end but a free level. -/
theorem propagate_eq {combined : Uint256}
    (h : i + ps.length < SAPLING_INCREMENTAL_MERKLE_TREE_DEPTH) :
    propagate E combined i ps = E.nodeHash.carry combined (i + 1) ps := by
  induction ps generalizing combined i with
  | nil => simp_all [propagate, carry]
  | cons p ps ih =>
    have hi : i < SAPLING_INCREMENTAL_MERKLE_TREE_DEPTH := by omega
    cases p with
    | none => simp [propagate, carry, hi]
    | some p =>
      rw [propagate, if_pos hi, ih (by simp at h; omega)]
      rfl

variable {n d skip : ℕ}

/-- The nodes of a tree with fewer leaves than fit a depth are below it. -/
theorem length_le_of_covers (h : E.nodeHash.Covers 1 ps L) (hlen : L.length < 2 ^ (n + 1)) :
    ps.length ≤ n := by
  by_cases hps : ps = []
  · simp [hps]
  · have hlow := h.le_length hps
    have hlt : 2 ^ (1 + ps.length) < 2 ^ (n + 2) := by
      rw [pow_succ 2 (n + 1)]
      omega
    have := (Nat.pow_lt_pow_iff_right (by omega)).mp hlt
    omega

theorem combine_pair (a b : Uint256) : E.pedersenCombine a b 0 = E.nodeHash.merkle 1 [a, b] :=
  (merkle_append (N := E.nodeHash) (C := [a]) (F := [b]) (d := 0) rfl).symm

/-- **A commitment is appended** as long as the tree is not full. -/
theorem Holds.exists_append (h : t.Holds E L)
    (hlen : L.length < 2 ^ SAPLING_INCREMENTAL_MERKLE_TREE_DEPTH) (obj : Uint256) :
    ∃ t', t.append E obj = .ok t' ∧ t'.Holds E (L ++ [obj]) := by
  have hfull : t.isComplete SAPLING_INCREMENTAL_MERKLE_TREE_DEPTH = true ↔ _ := h.isComplete_iff 31
  rw [append, if_neg fun hcomplete => hlen.ne (hfull.mp hcomplete)]
  cases h with
  | empty => exact ⟨_, rfl, .left (.nil 1)⟩
  | @left a ps L h => exact ⟨_, rfl, by simpa using Holds.right h⟩
  | @right a b ps L h =>
    refine ⟨_, rfl, ?_⟩
    have hps : ps.length ≤ 31 :=
      length_le_of_covers h ((by simp : L.length ≤ (L ++ [a, b]).length).trans_lt hlen)
    rw [propagate_eq (by rw [zero_add]; exact Nat.lt_succ_of_le hps), combine_pair]
    exact .left (h.carry rfl)

variable {t' : SaplingMerkleTree}

/-- A commitment that was appended had a place. -/
theorem Holds.append (h : t.Holds E L) (hlen : FitsTree L) {obj : Uint256}
    (ht : t.append E obj = .ok t') : t'.Holds E (L ++ [obj]) ∧ FitsTree (L ++ [obj]) := by
  rcases eq_or_lt_of_le hlen with hfull | hlt
  · have hcomplete : t.isComplete SAPLING_INCREMENTAL_MERKLE_TREE_DEPTH = true :=
      (h.isComplete_iff 31).mpr hfull
    rw [SaplingMerkleTree.append, if_pos hcomplete] at ht
    cases ht
  · obtain ⟨t'', ht'', hholds⟩ := h.exists_append hlt obj
    cases ht.symm.trans ht''
    exact ⟨hholds, by rwa [FitsTree, length_append]⟩

theorem Holds.appendAll {objs : List Uint256} (h : t.Holds E L) (hlen : FitsTree L)
    (ht : t.appendAll E objs = .ok t') :
    t'.Holds E (L ++ objs) ∧ FitsTree (L ++ objs) := by
  induction objs generalizing t L with
  | nil =>
    cases ht
    simpa using ⟨h, hlen⟩
  | cons obj objs ih =>
    obtain ⟨u, hu, ht⟩ := Except.bind_eq_ok.mp ht
    obtain ⟨hholds, hlen'⟩ := h.append hlen hu
    simpa using ih hholds hlen' ht

/-- **As many commitments as have a place can be appended.** -/
theorem Holds.exists_appendAll (h : t.Holds E L) (objs : List Uint256)
    (hlen : FitsTree (L ++ objs)) : ∃ t', t.appendAll E objs = .ok t' ∧ t'.Holds E (L ++ objs) := by
  induction objs generalizing t L with
  | nil => exact ⟨t, rfl, by simpa using h⟩
  | cons obj objs ih =>
    obtain ⟨u, hu, hholds⟩ := h.exists_append (lt_of_lt_of_le (by simp) hlen) obj
    obtain ⟨t', ht', hholds'⟩ := ih hholds (by simpa using hlen)
    exact ⟨t', by rw [SaplingMerkleTree.appendAll, hu]; exact ht', by simpa using hholds'⟩

/-! ## Roots -/

variable {root : Uint256}

/-- The loops of `root` go up the path. -/
theorem rootFillWith_eq {filler : List Uint256} :
    rootFillWith E root d filler n = E.nodeHash.climb root d n [] filler := by
  induction n generalizing root d filler with
  | zero => rfl
  | succ n ih =>
    rw [rootFillWith, ih]
    rfl

theorem climb_rootParentsWith {filler : List Uint256} (hps : ps.length ≤ n) :
    rootFillWith E (rootParentsWith E root d filler ps).1 (rootParentsWith E root d filler ps).2.1
        (rootParentsWith E root d filler ps).2.2
        (d + n - (rootParentsWith E root d filler ps).2.1) =
      E.nodeHash.climb root d n ps filler := by
  induction ps generalizing root d n filler with
  | nil => simp [rootParentsWith, rootFillWith_eq]
  | cons p ps ih =>
    obtain ⟨n, rfl⟩ : ∃ m, n = m + 1 := ⟨n - 1, by simp at hps; omega⟩
    have hexp : d + (n + 1) = d + 1 + n := by omega
    rw [hexp]
    cases p with
    | none => exact ih (by simpa using hps)
    | some p => exact ih (by simpa using hps)

/-- The gaps in the path of the last leaf, in a tree of depth `n + 1`. -/
def gapsBelow (t : SaplingMerkleTree) (n : ℕ) : List ℕ :=
  if t.right.isNone then 0 :: gaps 1 n t.parents else gaps 1 n t.parents

/-- **The root of a tree whose gaps are filled is that of all the leaves.** -/
theorem Holds.rootWith_eq (h : t.Holds E L) (hne : L ≠ [])
    (hlen : L.length ≤ 2 ^ (n + 1)) {Gs : List (List Uint256)} {hs : List Uint256}
    (hfill : E.nodeHash.Fills (t.gapsBelow n) Gs hs) :
    t.rootWith E (n + 1) hs = E.nodeHash.merkle (n + 1) (L ++ Gs.flatten) := by
  have hexp : n + 1 = 1 + n := by omega
  cases h with
  | empty => exact absurd rfl hne
  | @left a ps L h =>
    have hps := length_le_of_covers h (by simp at hlen; omega : L.length < 2 ^ (n + 1))
    obtain ⟨G, Gs', hGs, hlen', hfull', hfill', hroot⟩ :=
      Fills.up (C := [a]) hfill (by simp) (by simp) (by simp)
    have hup := climb_eq h hps (by simp) hlen' hfull' hfill'
    rw [← hroot] at hup
    rw [append_assoc, hGs, hexp, ← hup, ← climb_rootParentsWith hps]
    rfl
  | @right a b ps L h =>
    have hps := length_le_of_covers h (by simp at hlen; omega : L.length < 2 ^ (n + 1))
    have hup := climb_eq h hps (C := [a, b]) (by simp) (by simp) (fun _ => rfl) hfill
    rw [append_assoc, hexp, ← hup, ← climb_rootParentsWith hps]
    rfl

theorem rootParentsWith_nil :
    rootParentsWith E root d [] ps =
      ((rootParents E root d ps).1, (rootParents E root d ps).2, []) := by
  induction ps generalizing root d with
  | nil => rfl
  | cons p ps ih =>
    cases p with
    | none => exact ih
    | some p => exact ih

theorem rootFillWith_nil : rootFillWith E root d [] n = rootFill E root d n := by
  induction n generalizing root d with
  | zero => rfl
  | succ n ih => exact ih

/-- `root()` is `root(Depth)` without hashes to fill gaps with. -/
theorem root_eq_rootWith : t.root E = t.rootWith E SAPLING_INCREMENTAL_MERKLE_TREE_DEPTH [] := by
  simp [root, rootWith, rootParentsWith_nil, rootFillWith_nil]

/-- **The root of a tree is that of its leaves.** -/
theorem Holds.root_eq (h : t.Holds E L) (hne : L ≠ []) (hlen : FitsTree L) :
    t.root E = E.nodeHash.merkle SAPLING_INCREMENTAL_MERKLE_TREE_DEPTH L := by
  have hroot := h.rootWith_eq hne hlen (.done _)
  rw [flatten_nil, append_nil] at hroot
  rw [root_eq_rootWith]
  exact hroot

/-! ## The size of a tree -/

theorem Holds.last_eq (h : t.Holds E L) {obj : Uint256} (hlast : L.getLast? = some obj) :
    t.last = .ok obj := by
  cases h with
  | empty => simp at hlast
  | left h => simpa [last] using hlast
  | right h => simpa [last] using hlast

/-- **What a tree of the commitments `L` answers**: their root, the last of them, and that it is
full. -/
structure Answers (E : Env) (t : SaplingMerkleTree) (L : List Uint256) : Prop where
  root : t.root E = E.nodeHash.merkle SAPLING_INCREMENTAL_MERKLE_TREE_DEPTH L
  last : ∀ obj, t.last = .ok obj ↔ L.getLast? = some obj
  full : ∀ obj, t.append E obj = .error (.exception "tree is full") ↔
    L.length = 2 ^ SAPLING_INCREMENTAL_MERKLE_TREE_DEPTH

/-- **The tree of any commitments that have a place** can be made, and answers for them. -/
theorem appendAll_empty_answers (hne : L ≠ []) (hlen : FitsTree L) :
    ∃ t, empty.appendAll E L = .ok t ∧ t.Answers E L := by
  obtain ⟨t, ht, h⟩ := (Holds.empty (E := E)).exists_appendAll L hlen
  have hlast := h.last_eq (getLast?_eq_some_getLast hne)
  refine ⟨t, ht, h.root_eq hne hlen, fun obj => ?_, fun obj => ?_⟩
  · rw [hlast, getLast?_eq_some_getLast hne, Except.ok.injEq, Option.some_inj]
  · rcases eq_or_lt_of_le hlen with hfull | hlt
    · exact iff_of_true (if_pos ((h.isComplete_iff 31).mpr hfull)) hfull
    · obtain ⟨t', ht', -⟩ := h.exists_append hlt obj
      exact iff_of_false (by rw [ht']; rintro ⟨⟩) hlt.ne

theorem appendAll_empty_answers_pair : ∃ t, empty.appendAll sampleEnv [default, default] = .ok t ∧
    t.Answers sampleEnv [default, default] :=
  appendAll_empty_answers (by simp) (by decide)

/-- The size of a subtree of `2 ^ 31` leaves is negative as an `int`. -/
theorem signExtend_shiftLeft : ∀ k ≤ 31, (1#32 <<< k).signExtend 64 =
    BitVec.ofNat 64 (2 ^ k) - if k = 31 then BitVec.ofNat 64 (2 ^ 32) else 0#64 := by
  decide

theorem sizeParents_eq (h : E.nodeHash.Covers (i + 1) ps L) (hi : i + ps.length ≤ 31) :
    sizeParents i ps = BitVec.ofNat 64 L.length -
      if ps ≠ [] ∧ i + ps.length = 31 then BitVec.ofNat 64 (2 ^ 32) else 0#64 := by
  generalize hd : i + 1 = d at h
  induction h generalizing i with
  | nil d => simp [sizeParents]
  | @gap d ps L hps h ih =>
    subst hd
    rw [sizeParents, ih (by simp at hi; omega) rfl]
    simp [hps, Nat.add_right_comm i, ← Nat.add_assoc]
  | @node d p ps L C h hC hp ih =>
    subst hd
    simp only [length_cons] at hi
    rw [sizeParents, ih (by omega) rfl, length_append, hC, BitVec.ofNat_add]
    simp only [Option.isSome_some, if_true, signExtend_shiftLeft (i + 1) (by omega), length_cons]
    by_cases hps : ps = []
    · simp only [hps, length_nil]
      simp
      bv_omega
    · have hpos := length_pos_iff.mpr hps
      rw [if_neg (by omega), show i + 1 + ps.length = i + (ps.length + 1) by omega]
      simp [hps]
      bv_omega

/-- **The position of the last leaf is right exactly below `2 ^ 31`.** -/
theorem Holds.position_iff (h : t.Holds E L) (hlen : FitsTree L) (hi : L.length = i + 1) :
    (t.size - 1).toNat = i ↔ i < 2 ^ 31 := by
  -- The last leaf stands alone or as a right neighbour: `k` is the number of leaves beside the
  -- parents.
  obtain ⟨k, L', hk, hk', hL', hsize, hcovers⟩ : ∃ k L', 1 ≤ k ∧ k ≤ 2 ∧
      i + 1 = length L' + k ∧ t.size = BitVec.ofNat 64 k + sizeParents 0 t.parents ∧
      E.nodeHash.Covers 1 t.parents L' := by
    cases h with
    | empty => simp at hi
    | @left a ps L' h => exact ⟨1, L', le_rfl, by omega, by simpa using hi.symm, rfl, h⟩
    | @right a b ps L' h => exact ⟨2, L', by omega, le_rfl, by simpa using hi.symm, rfl, h⟩
  have hcap : i + 1 ≤ 2 ^ 32 := hi ▸ hlen
  have hparents : t.parents.length ≤ 31 := length_le_of_covers hcovers (by omega)
  rw [hsize]
  by_cases hshort : t.parents.length ≤ 30
  · have hsum := hcovers.length_add.1
    have hpow : 2 ^ (1 + t.parents.length) ≤ 2 ^ 31 := Nat.pow_le_pow_right (by omega) (by omega)
    rw [sizeParents_eq hcovers (by omega), if_neg (by omega), BitVec.sub_zero, ← BitVec.ofNat_add]
    have hlt : i < 2 ^ 31 := by omega
    have hpos : (BitVec.ofNat 64 (k + L'.length) - 1).toNat = i := by
      bv_omega
    exact iff_of_true hpos hlt
  · have hfull : t.parents.length = 31 := by omega
    have hne : t.parents ≠ [] := fun hnil => by simp [hnil] at hfull
    have hlow := hcovers.le_length hne
    rw [hfull] at hlow
    rw [sizeParents_eq hcovers (by omega), if_pos ⟨hne, by omega⟩]
    have hge : ¬ i < 2 ^ 31 := by omega
    refine iff_of_false (fun heq => ?_) hge
    bv_omega

/-! ## The next gap -/

theorem getElem?_gaps_nil (h : skip < n) :
    (gaps d n ([] : List (Option Uint256)))[skip]? = some (d + skip) := by
  induction n generalizing d skip with
  | zero => omega
  | succ n ih =>
    cases skip with
    | zero => rfl
    | succ skip =>
      rw [gaps, getElem?_cons_succ, ih (by omega)]
      congr 1
      omega

theorem getElem?_gaps (hps : ps.length ≤ n) (h : nextDepthParents d skip ps < d + n) :
    (gaps d n ps)[skip]? = some (nextDepthParents d skip ps) := by
  induction ps generalizing d n skip with
  | nil =>
    rw [nextDepthParents] at h ⊢
    exact getElem?_gaps_nil (by omega)
  | cons p ps ih =>
    obtain ⟨n, rfl⟩ : ∃ m, n = m + 1 := ⟨n - 1, by simp at hps; omega⟩
    have hexp : d + (n + 1) = d + 1 + n := by omega
    rw [hexp] at h
    have hps' : ps.length ≤ n := by simpa using hps
    match p, skip, h with
    | some _, _, h => exact ih hps' h
    | none, 0, h => rfl
    | none, skip + 1, h => exact ih hps' h

/-- `next_depth` finds the gap after those that are filled. -/
theorem Holds.getElem?_gapsBelow (h : t.Holds E L) (hne : L ≠ []) (skip : ℕ)
    (hlen : L.length ≤ 2 ^ (n + 1)) (hdepth : t.nextDepth skip < n + 1) :
    (t.gapsBelow n)[skip]? = some (t.nextDepth skip) := by
  have hexp : n + 1 = 1 + n := by omega
  rw [hexp] at hdepth
  cases h with
  | empty => exact absurd rfl hne
  | @left a ps L h =>
    have hps := length_le_of_covers h (by simp at hlen; omega : L.length < 2 ^ (n + 1))
    cases skip with
    | zero => rfl
    | succ skip => exact getElem?_gaps hps hdepth
  | @right a b ps L h =>
    have hps := length_le_of_covers h (by simp at hlen; omega : L.length < 2 ^ (n + 1))
    exact getElem?_gaps hps hdepth

theorem lt_of_mem_gapsBelow {g : ℕ} (h : g ∈ t.gapsBelow n) : g < n + 1 := by
  unfold gapsBelow at h
  split at h
  · rcases mem_cons.mp h with rfl | h
    · omega
    · have := lt_of_mem_gaps h
      omega
  · have := lt_of_mem_gaps h
    omega

end SaplingMerkleTree

/-! ## The leaves of a witness -/

namespace SaplingWitness

open NodeHash

/-- **The commitments `L'` after those of the tree** fill its first gaps, and the rest of them is
in the cursor. -/
inductive Fills (E : Env) (w : SaplingWitness) : List Uint256 → Prop
  | between {Fs : List (List Uint256)} {rest : List ℕ}
    (h : E.nodeHash.Filled (w.tree.gapsBelow 31) Fs w.filled rest) (hcursor : w.cursor = none) :
    Fills E w Fs.flatten
  | inGap {Fs : List (List Uint256)} {rest : List ℕ} {cursor : SaplingMerkleTree}
    {C : List Uint256}
    (h : E.nodeHash.Filled (w.tree.gapsBelow 31) Fs w.filled (w.cursor_depth :: rest))
    (hcursor : w.cursor = some cursor) (hdepth : 0 < w.cursor_depth) (hC : cursor.Holds E C)
    (hne : C ≠ []) (hlt : C.length < 2 ^ w.cursor_depth) : Fills E w (Fs.flatten ++ C)

/-- **The witness is of the last of the commitments `L`, and has followed `L'` after them.** -/
structure Holds (E : Env) (w : SaplingWitness) (L L' : List Uint256) : Prop where
  tree : w.tree.Holds E L
  nonempty : L ≠ []
  bounded : L.length ≤ 2 ^ SAPLING_INCREMENTAL_MERKLE_TREE_DEPTH
  fills : w.Fills E L'

variable {w w' : SaplingWitness} {L' : List Uint256} {obj : Uint256}

theorem holds_witness {t : SaplingMerkleTree} (h : t.Holds E L) (hne : L ≠ [])
    (hlen : FitsTree L) : t.witness.Holds E L [] := by
  have hnil : t.witness.Fills E [].flatten := .between (.nil _) rfl
  exact ⟨h, hne, hlen, hnil⟩

/-- The cursor of a depth, while it is not complete. -/
theorem rootWith_cursor {cursor : SaplingMerkleTree} {C : List Uint256} {depth : ℕ}
    (h : cursor.Holds E C) (hne : C ≠ []) (hdepth : 0 < depth) (hlen : C.length ≤ 2 ^ depth) :
    cursor.rootWith E depth [] = E.nodeHash.merkle depth C := by
  obtain ⟨n, rfl⟩ : ∃ n, depth = n + 1 := ⟨depth - 1, by omega⟩
  simpa using h.rootWith_eq hne hlen (.done _)

/-- **The root of a witness is that of all the commitments.** -/
theorem Holds.root_eq (h : w.Holds E L L') :
    w.root E = E.nodeHash.merkle SAPLING_INCREMENTAL_MERKLE_TREE_DEPTH (L ++ L') := by
  cases h.fills with
  | between hfilled hcursor =>
    rw [root, partialPath, hcursor]
    exact h.tree.rootWith_eq h.nonempty h.bounded hfilled.fills
  | @inGap Fs rest cursor C hfilled hcursor hdepth hC hne hlt =>
    have hroot := h.tree.rootWith_eq h.nonempty h.bounded (hfilled.fills_concat hne hlt.le)
    rw [root, partialPath, hcursor]
    simp only [rootWith_cursor hC hne hdepth hlt.le]
    have hflat : Fs.flatten ++ C = (Fs ++ [C]).flatten := by simp
    rw [hflat]
    exact hroot

theorem Holds.element_eq (h : w.Holds E L L') (hlast : L.getLast? = some obj) :
    w.element = .ok obj :=
  h.tree.last_eq hlast

/-- **A commitment is appended.** -/
theorem Holds.append (h : w.Holds E L L') (hw : w.append E obj = .ok w') :
    w'.Holds E L (L' ++ [obj]) := by
  cases h.fills with
  | @between Fs rest hfilled hcursor =>
    simp only [append, hcursor] at hw
    obtain ⟨hdepth, hw⟩ := Except.guard_eq_ok.mp hw
    have hgap := h.tree.getElem?_gapsBelow h.nonempty w.filled.length h.bounded (not_le.mp hdepth)
    obtain ⟨rest', hrest⟩ : ∃ rest', rest = w.tree.nextDepth w.filled.length :: rest' := by
      rw [hfilled.rest_eq]
      exact ⟨_, drop_eq_getElem?_toList_append.trans (by rw [hgap]; rfl)⟩
    subst hrest
    split at hw
    · next hzero =>
      cases hw
      have hfill := hfilled.concat (G := [obj]) (by rw [hzero]; rfl)
      rw [hzero] at hfill
      refine ⟨h.tree, h.nonempty, h.bounded, ?_⟩
      have hflat : Fs.flatten ++ [obj] = (Fs ++ [[obj]]).flatten := by simp
      rw [hflat]
      exact .between hfill rfl
    · next hpos =>
      obtain ⟨cursor, hc, rfl⟩ := Except.map_eq_ok.mp hw
      obtain ⟨c, hc', hholds⟩ :=
        SaplingMerkleTree.Holds.empty.exists_append (by decide) obj
      cases hc.symm.trans hc'
      refine ⟨h.tree, h.nonempty, h.bounded, .inGap hfilled rfl (Nat.pos_of_ne_zero hpos) hholds
        (by simp) ?_⟩
      exact Nat.one_lt_two_pow hpos
  | @inGap Fs rest cursor C hfilled hcursor hdepth hC hne hlt =>
    simp only [append, hcursor] at hw
    obtain ⟨c, hc, rfl⟩ := Except.map_eq_ok.mp hw
    have hmem : w.cursor_depth ∈ w.tree.gapsBelow 31 := by
      have := hfilled.rest_eq
      exact mem_of_mem_drop (this ▸ mem_cons_self)
    have hcap : 2 ^ w.cursor_depth < 2 ^ 32 :=
      Nat.pow_lt_pow_right (by omega) (SaplingMerkleTree.lt_of_mem_gapsBelow hmem)
    obtain ⟨c', hc', hholds⟩ := hC.exists_append (hlt.trans hcap) obj
    cases hc.symm.trans hc'
    have hlen : (C ++ [obj]).length ≤ 2 ^ w.cursor_depth := by
      simp
      omega
    obtain ⟨n, hn⟩ : ∃ n, w.cursor_depth = n + 1 := ⟨w.cursor_depth - 1, by omega⟩
    have hcomplete := hholds.isComplete_iff n
    rw [← hn] at hcomplete
    refine ⟨?_, ?_, ?_, ?_⟩
    · split <;> exact h.tree
    · exact h.nonempty
    · exact h.bounded
    · rw [append_assoc]
      split
      · next hc =>
        have hfill := hfilled.concat (hcomplete.mp hc)
        rw [← rootWith_cursor hholds (by simp) hdepth hlen] at hfill
        have hflat : Fs.flatten ++ (C ++ [obj]) = (Fs ++ [C ++ [obj]]).flatten := by simp
        rw [hflat]
        exact .between hfill rfl
      · next hc =>
        exact .inGap hfilled rfl hdepth hholds (by simp)
          (lt_of_le_of_ne hlen fun heq => hc (hcomplete.mpr heq))

end SaplingWitness

end Passion
