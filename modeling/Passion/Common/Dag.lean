import Mathlib.Algebra.BigOperators.Group.Finset.Basic
import Passion.Common.Traversal

/-!
# Finite graphs without cycles

A finite set of nodes with children among them, in which no node is below itself. For each node
there are the nodes above it and those below it, itself among both. For each operation it is said
how what is above and below a node changes: a leaf is added, a set of nodes is removed that no path
between others runs through, and the nodes of a batch get children outside it.
-/

open Traversal Finset

/-- **A finite graph without cycles.** -/
structure Dag (K : Type*) where
  nodes : Finset K
  children : K → Finset K
  mem : ∀ {a b}, b ∈ children a → a ∈ nodes ∧ b ∈ nodes
  acyclic : ∀ {a b}, b ∈ children a → ¬ Reaches children b a

namespace Traversal

variable {K : Type*} {links links' back : K → Finset K} {a b : K}

/-- The same links, read backwards. -/
theorem reaches_swap (h : ∀ a b, b ∈ links a ↔ a ∈ back b) :
    Reaches back b a ↔ Reaches links a b := by
  have hrel : (fun a b => b ∈ back a) = Function.swap fun a b => b ∈ links a := by
    funext x y
    exact propext (h y x).symm
  rw [Reaches, hrel]
  exact Relation.reflTransGen_swap

/-- Two sets of links that agree on what is reached reach the same. -/
theorem reaches_congr (h : ∀ x, Reaches links a x → links' x = links x) :
    Reaches links' a b ↔ Reaches links a b := by
  constructor
  · intro hab
    induction hab with
    | refl => exact .refl
    | tail _ hxy ih => exact ih.tail (h _ ih ▸ hxy)
  · intro hab
    induction hab with
    | refl => exact .refl
    | tail hax hxy ih => exact ih.tail ((h _ hax).symm ▸ hxy)

theorem Reaches.mono (h : ∀ x, links x ⊆ links' x) (hab : Reaches links a b) :
    Reaches links' a b := by
  induction hab with
  | refl => exact .refl
  | tail _ hxy ih => exact ih.tail (h _ hxy)

/-- What is reached from a set that is closed under links lies in it. -/
theorem Reaches.mem_of_closed {S : Finset K} (h : ∀ x ∈ S, links x ⊆ S) (hab : Reaches links a b)
    (ha : a ∈ S) : b ∈ S := by
  induction hab with
  | refl => exact ha
  | tail _ hxy ih => exact h _ ih hxy

end Traversal

namespace Dag

variable {K : Type*} (G : Dag K) {a b x y : K}

/-- The graph without nodes. -/
def empty : Dag K := ⟨∅, fun _ => ∅, fun h => absurd h (Finset.notMem_empty _),
  fun h => absurd h (Finset.notMem_empty _)⟩

theorem mem_of_reaches (h : Reaches G.children a b) (ha : a ∈ G.nodes) : b ∈ G.nodes :=
  h.mem_of_closed (fun _ _ _ hy => (G.mem hy).2) ha

theorem mem_of_reaches_to (h : Reaches G.children a b) (hb : b ∈ G.nodes) : a ∈ G.nodes := by
  rcases Relation.ReflTransGen.cases_head h with rfl | ⟨c, hac, -⟩
  · exact hb
  · exact (G.mem hac).1

open Classical in
/-- The nodes above a node, with itself. -/
noncomputable def above (x : K) : Finset K := G.nodes.filter fun a => Reaches G.children a x

open Classical in
/-- The nodes below a node, with itself. -/
noncomputable def below (x : K) : Finset K := G.nodes.filter fun b => Reaches G.children x b

variable {G}

@[simp] theorem mem_above : a ∈ G.above x ↔ a ∈ G.nodes ∧ Reaches G.children a x := by
  simp [above]

@[simp] theorem mem_below : b ∈ G.below x ↔ b ∈ G.nodes ∧ Reaches G.children x b := by
  simp [below]

/-- The two sides of a node. -/
inductive Side
  | up
  | down
  deriving DecidableEq

/-- The other side. -/
def Side.flip : Side → Side
  | .up => .down
  | .down => .up

variable (G) in
/-- The nodes on one side of a node, with itself. -/
noncomputable def span : Side → K → Finset K
  | .up, x => G.above x
  | .down, x => G.below x

variable {side : Side}

theorem mem_of_span (h : a ∈ G.span side x) : a ∈ G.nodes := by
  cases side with
  | up => exact (mem_above.mp h).1
  | down => exact (mem_below.mp h).1

theorem self_mem_span (hx : x ∈ G.nodes) : x ∈ G.span side x := by
  cases side with
  | up => exact mem_above.mpr ⟨hx, .refl⟩
  | down => exact mem_below.mpr ⟨hx, .refl⟩

/-- A node is below another that is above it. -/
theorem mem_span_flip (hx : x ∈ G.nodes) (hy : y ∈ G.nodes) :
    x ∈ G.span side.flip y ↔ y ∈ G.span side x := by
  cases side <;> simp [span, Side.flip, hx, hy]

variable [DecidableEq K]

/-- What is above a node, without itself, is above one of its parents. -/
theorem mem_above_erase : a ∈ (G.above x).erase x ↔ ∃ k, x ∈ G.children k ∧ Reaches G.children a k := by
  rw [mem_erase, mem_above]
  constructor
  · rintro ⟨hne, -, hax⟩
    rcases Relation.ReflTransGen.cases_tail hax with heq | ⟨k, hak, hkx⟩
    · exact absurd heq.symm hne
    · exact ⟨k, hkx, hak⟩
  · rintro ⟨k, hkx, hak⟩
    exact ⟨fun heq => G.acyclic hkx (heq ▸ hak), G.mem_of_reaches_to hak (G.mem hkx).1,
      hak.tail hkx⟩

variable (G)

/-! ## A leaf is added -/

section AddLeaf

variable (v : K) (P : Finset K)

/-- The children where a leaf has been put under its parents. -/
def leafChildren (a : K) : Finset K := if a ∈ P then insert v (G.children a) else G.children a

variable {G v P}

theorem mem_leafChildren : b ∈ G.leafChildren v P a ↔ b ∈ G.children a ∨ (a ∈ P ∧ b = v) := by
  unfold leafChildren
  split
  · next ha => simp [ha, or_comm]
  · next ha => simp [ha]

/-- **Paths with a leaf**: those of old, and those to a parent that go on to the leaf. -/
theorem reaches_leafChildren (hv : v ∉ G.nodes) (hP : P ⊆ G.nodes) :
    Reaches (G.leafChildren v P) x y ↔
      Reaches G.children x y ∨ (y = v ∧ ∃ p ∈ P, Reaches G.children x p) := by
  have hmono {b} : Reaches G.children x b → Reaches (G.leafChildren v P) x b :=
    Reaches.mono fun a c hc => mem_leafChildren.mpr (.inl hc)
  constructor
  · intro h
    induction h with
    | refl => exact .inl .refl
    | tail _ hcy ih =>
      rcases ih, mem_leafChildren.mp hcy with ⟨hxc | ⟨rfl, -⟩, hc | ⟨hp, rfl⟩⟩
      · exact .inl (hxc.tail hc)
      · exact .inr ⟨rfl, _, hp, hxc⟩
      · exact absurd (G.mem hc).1 hv
      · exact absurd (hP hp) hv
  · rintro (h | ⟨rfl, p, hp, hxp⟩)
    · exact hmono h
    · exact (hmono hxp).tail (mem_leafChildren.mpr (.inr ⟨hp, rfl⟩))

variable (G)

/-- **A new node with parents and without children.** -/
def addLeaf (hv : v ∉ G.nodes) (hP : P ⊆ G.nodes) : Dag K where
  nodes := insert v G.nodes
  children := G.leafChildren v P
  mem {a b} hb := by
    rcases mem_leafChildren.mp hb with hc | ⟨hp, rfl⟩
    · exact ⟨Finset.mem_insert_of_mem (G.mem hc).1, Finset.mem_insert_of_mem (G.mem hc).2⟩
    · exact ⟨Finset.mem_insert_of_mem (hP hp), Finset.mem_insert_self b _⟩
  acyclic {a b} hb hba := by
    rcases (reaches_leafChildren hv hP).mp hba, mem_leafChildren.mp hb with
      ⟨hold | ⟨rfl, -⟩, hc | ⟨hp, rfl⟩⟩
    · exact G.acyclic hc hold
    · exact hv (G.mem_of_reaches_to hold (hP hp))
    · exact hv (G.mem hc).1
    · exact hv (hP hp)

variable {G} (hv : v ∉ G.nodes) (hP : P ⊆ G.nodes)

theorem reaches_addLeaf : Reaches (G.addLeaf hv hP).children x y ↔
    Reaches G.children x y ∨ (y = v ∧ ∃ p ∈ P, Reaches G.children x p) :=
  reaches_leafChildren hv hP

theorem mem_nodes_addLeaf : a ∈ (G.addLeaf hv hP).nodes ↔ a = v ∨ a ∈ G.nodes :=
  mem_insert

theorem above_addLeaf_of_ne (hx : x ≠ v) (hmem : x ∈ G.nodes) :
    (G.addLeaf hv hP).above x = G.above x := by
  ext a
  simp only [mem_above, mem_nodes_addLeaf, reaches_addLeaf, hx, false_and, or_false]
  exact ⟨fun h => ⟨G.mem_of_reaches_to h.2 hmem, h.2⟩, fun h => ⟨.inr h.1, h.2⟩⟩

/-- What is above a new leaf: itself, and what is above its parents. -/
theorem above_addLeaf {A : Finset K} (hA : ∀ a, a ∈ A ↔ ∃ p ∈ P, Reaches G.children a p) :
    (G.addLeaf hv hP).above v = insert v A := by
  ext a
  rw [mem_above, mem_nodes_addLeaf, reaches_addLeaf, mem_insert, hA]
  constructor
  · rintro ⟨ha, hav | ⟨-, hp⟩⟩
    · exact .inl (ha.resolve_right fun ha => hv (G.mem_of_reaches hav ha))
    · exact .inr hp
  · rintro (rfl | ⟨p, hp, hap⟩)
    · exact ⟨.inl rfl, .inl .refl⟩
    · exact ⟨.inr (G.mem_of_reaches_to hap (hP hp)), .inr ⟨rfl, p, hp, hap⟩⟩

/-- What is below a node: what was, and the leaf if it has come under it. -/
theorem below_addLeaf {A : Finset K} (hA : ∀ a, a ∈ A ↔ ∃ p ∈ P, Reaches G.children a p)
    (hx : x ≠ v) :
    (G.addLeaf hv hP).below x = if x ∈ A then insert v (G.below x) else G.below x := by
  have hmem : ∀ b, b ∈ (G.addLeaf hv hP).below x ↔ b ∈ G.below x ∨ (b = v ∧ x ∈ A) := by
    intro b
    rw [mem_below, mem_below, mem_nodes_addLeaf, reaches_addLeaf, hA]
    by_cases hb : b = v
    · subst hb
      have hno : ¬ Reaches G.children x b := fun h =>
        (Relation.ReflTransGen.cases_tail h).elim (fun h => hx h.symm) fun ⟨_, _, hc⟩ =>
          hv (G.mem hc).2
      simp [hv, hno]
    · simp [hb]
  ext b
  rw [hmem]
  split
  · next hxA => simp [hxA, or_comm]
  · next hxA => simp [hxA]

theorem below_addLeaf_leaf : (G.addLeaf hv hP).below v = {v} := by
  ext b
  rw [mem_below, mem_nodes_addLeaf, reaches_addLeaf, mem_singleton]
  constructor
  · rintro ⟨hb, hvb | ⟨heq, -⟩⟩
    · exact hb.resolve_right fun hb => hv (G.mem_of_reaches_to hvb hb)
    · exact heq
  · rintro rfl
    exact ⟨.inl rfl, .inl .refl⟩

end AddLeaf

/-! ## Nodes are removed -/

section Remove

variable (R : Finset K)

/-- The children where some nodes are gone. -/
def restChildren (a : K) : Finset K := if a ∈ R then ∅ else G.children a \ R

variable {G R}

theorem mem_restChildren : b ∈ G.restChildren R a ↔ b ∈ G.children a ∧ a ∉ R ∧ b ∉ R := by
  unfold restChildren
  split
  · next ha => simp [ha]
  · next ha => simp [ha]

variable (G R)

/-- **The graph without some nodes.** -/
def remove : Dag K where
  nodes := G.nodes \ R
  children := G.restChildren R
  mem {a b} hb := by
    obtain ⟨hc, ha, hbR⟩ := mem_restChildren.mp hb
    exact ⟨Finset.mem_sdiff.mpr ⟨(G.mem hc).1, ha⟩, Finset.mem_sdiff.mpr ⟨(G.mem hc).2, hbR⟩⟩
  acyclic {a b} hb hba :=
    G.acyclic (mem_restChildren.mp hb).1
      (hba.mono fun x y hy => (mem_restChildren.mp hy).1)

/-- No path between other nodes runs through the set. -/
def Avoids : Prop :=
  ∀ x r y, x ∉ R → r ∈ R → y ∉ R → Reaches G.children x r → ¬ Reaches G.children r y

variable {G R}

omit [DecidableEq K] in
/-- A set with all that is below it. -/
theorem avoids_of_closed (h : ∀ r ∈ R, G.children r ⊆ R) : G.Avoids R :=
  fun _ _ _ _ hr hy _ hry => hy (hry.mem_of_closed h hr)

omit [DecidableEq K] in
/-- A node without parents. -/
theorem avoids_root {r : K} (h : ∀ a, r ∉ G.children a) : G.Avoids {r} := by
  intro x s y hx hs _ hxs _
  obtain rfl := mem_singleton.mp hs
  rcases Relation.ReflTransGen.cases_tail hxs with heq | ⟨c, -, hcr⟩
  · exact hx (mem_singleton.mpr heq.symm)
  · exact h c hcr

/-- Between the nodes that stay nothing changes. -/
theorem reaches_restChildren (h : G.Avoids R) (hx : x ∉ R) (hy : y ∉ R) :
    Reaches (G.restChildren R) x y ↔ Reaches G.children x y := by
  refine ⟨Reaches.mono fun a b hb => (mem_restChildren.mp hb).1, fun hxy => ?_⟩
  -- every node on the path stays, or a path between others would run through the set
  suffices ∀ c, Reaches G.children x c → Reaches G.children c y →
      Reaches (G.restChildren R) x c ∧ c ∉ R from (this y hxy .refl).1
  intro c hxc
  induction hxc with
  | refl => exact fun _ => ⟨.refl, hx⟩
  | @tail b c hxb hbc ih =>
    intro hcy
    have hc : c ∉ R := fun hc => h x c y hx hc hy (hxb.tail hbc) hcy
    obtain ⟨hxb', hb⟩ := ih (.head hbc hcy)
    exact ⟨hxb'.tail (mem_restChildren.mpr ⟨hbc, hb, hc⟩), hc⟩

theorem span_remove (h : G.Avoids R) (hx : x ∉ R) : (G.remove R).span side x = G.span side x \ R := by
  ext a
  by_cases ha : a ∈ R
  · cases side <;> simp [span, remove, ha]
  · cases side with
    | up => simp [span, remove, ha, reaches_restChildren h ha hx]
    | down => simp [span, remove, ha, reaches_restChildren h hx ha]

end Remove

/-! ## A batch is joined to the rest -/

/-- **A batch of nodes that is not joined to the others yet**, with the children that its nodes
have outside it. What leads into the batch comes from the batch. -/
structure Batch where
  batch : Finset K
  outside : K → Finset K
  subset : batch ⊆ G.nodes
  closed : ∀ {a b}, b ∈ G.children a → (a ∈ batch ↔ b ∈ batch)
  outside_subset : ∀ {a b}, a ∈ batch → b ∈ outside a → b ∈ G.nodes ∧ b ∉ batch

namespace Batch

variable {G} (B : G.Batch) (Q : Finset K)

/-- The nodes in a set, with children outside it. -/
def ofSet (S : Finset K) (successors : K → Finset K)
    (hclosed : ∀ {a b}, b ∈ G.children a → (a ∈ S ↔ b ∈ S))
    (hmem : ∀ {a b}, b ∈ successors a → b ∈ G.nodes) : G.Batch where
  batch := G.nodes ∩ S
  outside a := successors a \ S
  subset := Finset.inter_subset_left
  closed {a b} hb := by simp [G.mem hb, hclosed hb]
  outside_subset {a b} _ hb := by
    obtain ⟨hb, hbS⟩ := Finset.mem_sdiff.mp hb
    exact ⟨hmem hb, fun h => hbS (Finset.mem_inter.mp h).2⟩

/-- The children where the nodes of `Q` are joined to those outside. -/
def joinedChildren (a : K) : Finset K :=
  if a ∈ B.batch ∧ a ∈ Q then G.children a ∪ B.outside a else G.children a

variable {B Q}

theorem mem_joinedChildren :
    b ∈ B.joinedChildren Q a ↔ b ∈ G.children a ∨ (a ∈ B.batch ∧ a ∈ Q ∧ b ∈ B.outside a) := by
  unfold joinedChildren
  split
  · next ha => simp [ha]
  · next ha =>
    rw [not_and] at ha
    constructor
    · exact .inl
    · rintro (hb | ⟨haB, haQ, -⟩)
      · exact hb
      · exact absurd haQ (ha haB)

/-- A path into the batch lies in the batch, and is one of old. -/
theorem reaches_into (h : Reaches (B.joinedChildren Q) x y) (hy : y ∈ B.batch) :
    x ∈ B.batch ∧ Reaches G.children x y := by
  induction h using Relation.ReflTransGen.head_induction_on with
  | refl => exact ⟨hy, .refl⟩
  | head hac _ ih =>
    rcases mem_joinedChildren.mp hac with hc | ⟨ha, -, hout⟩
    · exact ⟨(B.closed hc).mpr ih.1, .head hc ih.2⟩
    · exact absurd ih.1 (B.outside_subset ha hout).2

/-- A path from outside the batch stays outside, and is one of old. -/
theorem reaches_from (h : Reaches (B.joinedChildren Q) x y) (hx : x ∉ B.batch) :
    y ∉ B.batch ∧ Reaches G.children x y := by
  induction h with
  | refl => exact ⟨hx, .refl⟩
  | tail _ hcy ih =>
    rcases mem_joinedChildren.mp hcy with hc | ⟨ha, -, -⟩
    · exact ⟨fun hy => ih.1 ((B.closed hc).mpr hy), ih.2.tail hc⟩
    · exact absurd ha ih.1

omit [DecidableEq K] in
/-- The old paths join nodes of the batch, or nodes outside. -/
theorem mem_iff_of_reaches (h : Reaches G.children x y) : x ∈ B.batch ↔ y ∈ B.batch := by
  induction h with
  | refl => rfl
  | tail _ hcy ih => exact ih.trans (B.closed hcy)

theorem reaches_joined (h : Reaches G.children x y) : Reaches (B.joinedChildren Q) x y :=
  h.mono fun _ _ hb => mem_joinedChildren.mpr (.inl hb)

variable (B Q)

/-- **The graph where the nodes of `Q` are joined to those outside.** -/
def join : Dag K where
  nodes := G.nodes
  children := B.joinedChildren Q
  mem {a b} hb := by
    rcases mem_joinedChildren.mp hb with hc | ⟨ha, -, hout⟩
    · exact G.mem hc
    · exact ⟨B.subset ha, (B.outside_subset ha hout).1⟩
  acyclic {a b} hb hba := by
    by_cases ha : a ∈ B.batch
    · obtain ⟨hbB, hold⟩ := reaches_into hba ha
      rcases mem_joinedChildren.mp hb with hc | ⟨-, -, hout⟩
      · exact G.acyclic hc hold
      · exact (B.outside_subset ha hout).2 hbB
    · rcases mem_joinedChildren.mp hb with hc | ⟨haB, -, -⟩
      · exact G.acyclic hc (reaches_from hba fun hbB => ha ((B.closed hc).mpr hbB)).2
      · exact ha haB

/-- All nodes of the batch are joined. -/
abbrev joined : Dag K := B.join B.batch

/-! While the nodes of the batch are joined one after the other, what is counted for a node is
not yet what is above and below it at the end. -/

/-- What is counted above a node outside: nodes outside, and those of the batch that are
joined. -/
noncomputable def aboveAt (x : K) : Finset K :=
  if x ∈ B.batch then B.joined.above x
  else (B.joined.above x).filter fun a => a ∉ B.batch ∨ a ∈ Q

/-- What is counted below a node of the batch that is not joined: nodes of the batch. -/
noncomputable def belowAt (x : K) : Finset K :=
  if x ∈ B.batch ∧ x ∉ Q then (B.joined.below x).filter fun b => b ∈ B.batch
  else B.joined.below x

theorem aboveAt_empty (x : K) : B.aboveAt ∅ x = G.above x := by
  ext a
  unfold aboveAt
  split
  · next hx =>
    rw [mem_above, mem_above]
    exact and_congr_right fun _ => ⟨fun h => (reaches_into h hx).2, reaches_joined⟩
  · next hx =>
    rw [mem_filter, mem_above, mem_above]
    constructor
    · rintro ⟨⟨ha, hax⟩, haB⟩
      exact ⟨ha, (reaches_from hax (haB.resolve_right (notMem_empty a))).2⟩
    · rintro ⟨ha, hax⟩
      exact ⟨⟨ha, reaches_joined hax⟩, .inl fun haB => hx ((mem_iff_of_reaches hax).mp haB)⟩

theorem belowAt_empty (x : K) : B.belowAt ∅ x = G.below x := by
  ext b
  unfold belowAt
  split
  · next hx =>
    rw [mem_filter, mem_below, mem_below]
    constructor
    · rintro ⟨⟨hb, hxb⟩, hbB⟩
      exact ⟨hb, (reaches_into hxb hbB).2⟩
    · rintro ⟨hb, hxb⟩
      exact ⟨⟨hb, reaches_joined hxb⟩, (mem_iff_of_reaches hxb).mp hx.1⟩
  · next hx =>
    have hxB : x ∉ B.batch := fun hxB => hx ⟨hxB, notMem_empty x⟩
    rw [mem_below, mem_below]
    exact and_congr_right fun _ => ⟨fun h => (reaches_from h hxB).2, reaches_joined⟩

/-- What is counted on one side of a node. -/
noncomputable def spanAt : Side → K → Finset K
  | .up, x => B.aboveAt Q x
  | .down, x => B.belowAt Q x

theorem spanAt_empty (side : Side) (x : K) : B.spanAt ∅ side x = G.span side x := by
  cases side with
  | up => exact B.aboveAt_empty x
  | down => exact B.belowAt_empty x

theorem spanAt_batch (side : Side) (x : K) : B.spanAt B.batch side x = B.joined.span side x := by
  cases side with
  | up =>
    change B.aboveAt B.batch x = B.joined.above x
    unfold aboveAt
    split
    · rfl
    · exact filter_true_of_mem fun a _ => (em (a ∈ B.batch)).symm
  | down => exact if_neg fun h => h.2 h.1

variable {B Q}

variable (B) in
/-- The nodes outside the batch below one of its nodes. -/
noncomputable def outer (b : K) : Finset K := (B.joined.below b).filter fun y => y ∉ B.batch

section

variable (hb : b ∈ B.batch)

include hb

theorem mem_outer : x ∈ B.outer b ↔ Reaches B.joined.children b x ∧ x ∉ B.batch := by
  rw [outer, mem_filter, mem_below]
  refine and_congr_left fun _ => ⟨fun h => h.2, fun h => ⟨?_, h⟩⟩
  exact B.joined.mem_of_reaches h (B.subset hb)

/-- A node of the batch is joined: it counts above what is below it outside the batch. -/
theorem aboveAt_insert :
    B.aboveAt (insert b Q) x = if x ∈ B.outer b then insert b (B.aboveAt Q x) else B.aboveAt Q x := by
  unfold aboveAt
  by_cases hx : x ∈ B.batch
  · simp [hx, mem_outer hb]
  · rw [if_neg hx, if_neg hx]
    ext a
    by_cases hbx : Reaches B.joined.children b x
    · rw [if_pos ((mem_outer hb).mpr ⟨hbx, hx⟩)]
      by_cases ha : a = b
      · subst ha
        simp [hbx, show a ∈ B.joined.nodes from B.subset hb]
      · simp [ha]
    · rw [if_neg fun h => hbx ((mem_outer hb).mp h).1]
      by_cases ha : a = b
      · subst ha
        simp [hbx]
      · simp [ha]

/-- It is counted there once. -/
theorem notMem_aboveAt (hbQ : b ∉ Q) (hx : x ∈ B.outer b) : b ∉ B.aboveAt Q x := by
  rw [aboveAt, if_neg ((mem_outer hb).mp hx).2, mem_filter]
  rintro ⟨-, hnot | hQ⟩
  · exact hnot hb
  · exact hbQ hQ

/-- And what is below it outside the batch counts for it. -/
theorem belowAt_insert_self (hbQ : b ∉ Q) :
    B.belowAt (insert b Q) b = B.belowAt Q b ∪ B.outer b := by
  rw [belowAt, if_neg fun h => h.2 (mem_insert_self b Q), belowAt, if_pos ⟨hb, hbQ⟩, outer,
    filter_union_filter_not_eq]

theorem disjoint_belowAt_outer (hbQ : b ∉ Q) : Disjoint (B.belowAt Q b) (B.outer b) := by
  rw [belowAt, if_pos ⟨hb, hbQ⟩]
  exact disjoint_filter_filter_not _ _ _

end

theorem belowAt_insert_of_ne (hx : x ≠ b) : B.belowAt (insert b Q) x = B.belowAt Q x := by
  simp [belowAt, hx]

/-- Where the nodes of the batch below a node are joined, all is reached that will be. -/
theorem reaches_join_iff {Q : Finset K}
    (hQ : ∀ b ∈ B.batch, Reaches B.joined.children a b → b ∈ Q) :
    Reaches (B.join Q).children a y ↔ Reaches B.joined.children a y := by
  refine (reaches_congr fun x hx => ?_)
  change B.joinedChildren Q x = B.joinedChildren B.batch x
  unfold joinedChildren
  by_cases hxB : x ∈ B.batch
  · simp [hQ x hxB hx]
  · simp [hxB]

variable (hQ : ∀ c ∈ B.batch, c ∈ Q → G.children c ⊆ Q)

include hQ

/-- What has its children in the batch with it has there all that it leads to. -/
theorem mem_of_reaches_joined (hx : x ∈ B.batch) (hxQ : x ∈ Q) (h : Reaches B.joined.children x y)
    (hy : y ∈ B.batch) : y ∈ Q := by
  have hold := (reaches_into h hy).2
  clear h hy
  induction hold with
  | refl => exact hxQ
  | tail hxc hcy ih => exact hQ _ ((mem_iff_of_reaches hxc).mp hx) ih hcy

/-- What is outside the batch below one of its nodes can stand for the node in a traversal. -/
theorem known_outer (hb : b ∈ B.batch) (hbQ : b ∈ Q) :
    Known (B.join Q).children B.batch b (B.outer b) := by
  have hiff : ∀ y, Reaches (B.join Q).children b y ↔ Reaches B.joined.children b y := fun y =>
    reaches_join_iff fun c hc hbc => mem_of_reaches_joined hQ hb hbQ hbc hc
  refine ⟨fun y hy => (hiff y).mpr ((mem_outer hb).mp hy).1, fun y hy z hz => ?_, fun y hy => ?_⟩
  · obtain ⟨hby, hyB⟩ := (mem_outer hb).mp hy
    rcases mem_joinedChildren.mp hz with hc | ⟨hyB', -, -⟩
    · exact (mem_outer hb).mpr ⟨hby.tail (mem_joinedChildren.mpr (.inl hc)),
        fun hzB => hyB ((B.closed hc).mpr hzB)⟩
    · exact absurd hyB' hyB
  · by_cases hyB : y ∈ B.batch
    · exact .inl hyB
    · exact .inr ((mem_outer hb).mpr ⟨(hiff y).mp hy, hyB⟩)

/-- A traversal from the children of a node, up to the batch, finds what is outside it. -/
theorem sdiff_eq_outer (hb : b ∈ B.batch) (hbQ : b ∈ Q) {t : Finset K}
    (hsound : ∀ y ∈ t, ∃ k ∈ (B.join Q).children b, Reaches (B.join Q).children k y)
    (hcomplete : ∀ k ∈ (B.join Q).children b, ∀ y, Reaches (B.join Q).children k y →
      y ∈ B.batch ∨ y ∈ t) : t \ B.batch = B.outer b := by
  have hknown := known_outer hQ hb hbQ
  ext y
  rw [mem_sdiff]
  constructor
  · rintro ⟨hy, hyB⟩
    obtain ⟨k, hk, hky⟩ := hsound y hy
    exact (hknown.complete y (.head hk hky)).resolve_left hyB
  · intro hy
    have hyB := ((mem_outer hb).mp hy).2
    rcases Relation.ReflTransGen.cases_head (hknown.sound y hy) with rfl | ⟨k, hk, hky⟩
    · exact absurd hb hyB
    · exact ⟨(hcomplete k hk y hky).resolve_left hyB, hyB⟩

end Batch

end Dag
