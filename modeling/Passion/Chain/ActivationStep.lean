import Passion.Chain.Activation

/-!
# The active chain as a path of the tree

`chainActive` holds the ancestors of its tip by height. A branch is what an entry has above
the active chain, and it ends at the fork.
-/

namespace Passion

open List CBlockIndex

variable {m : BlockMap} {I J : ChainIndex} {hash k : Uint256} {p p' a tip : CBlockIndex}
variable {f : CBlockIndex → CBlockIndex} {connects : Uint256 → Bool}

namespace BlockMap.IsTree

section

variable (hm : m.IsTree) (hp : m.lookup hash = some p)

include hm hp

/-- The walk back to an ancestor is a first part of the walk. -/
theorem exists_append_of_mem_ancestors :
    a ∈ p.ancestors m → ∃ pre, p.ancestors m = pre ++ a.ancestors m ∧
      ∀ x ∈ pre, x.hashBlock ≠ a.hashBlock ∧ a ∈ x.ancestors m := by
  refine hm.induction ?_ ?_ hp
  · intro hash p hp hroot ha
    rw [hm.ancestors_root hp hroot, mem_singleton] at ha
    subst ha
    exact ⟨[], rfl, fun x hx => absurd hx not_mem_nil⟩
  · intro hash p g q hp hprev hq ih ha
    have hcons := hm.ancestors_child hp hprev hq
    have hmem := ha
    rw [hcons, mem_cons] at hmem
    rcases hmem with rfl | hmem
    · exact ⟨[], rfl, fun x hx => absurd hx not_mem_nil⟩
    · obtain ⟨pre, hpre, hx⟩ := ih hmem
      refine ⟨p :: pre, by rw [hcons, hpre, cons_append], forall_mem_cons.mpr
        ⟨⟨fun heq => ?_, ha⟩, hx⟩⟩
      rw [← hm.eq_of_hashBlock hp (hm.lookup_ancestor hp ha) heq] at hmem
      exact hm.not_mem_ancestors_parent hp hprev hq hmem

/-- The ancestors stand by height in the reversed walk. -/
theorem getElem?_reverse_ancestors :
    (p.ancestors m).length = p.nHeight.toNat + 1 ∧
      ∀ a ∈ p.ancestors m, (p.ancestors m).reverse[a.nHeight.toNat]? = some a := by
  refine hm.induction ?_ ?_ hp
  · intro hash p hp hroot
    have hzero : p.nHeight.toNat = 0 := by rw [hm.root hp hroot]; rfl
    rw [hm.ancestors_root hp hroot]
    simp [hzero]
  · rintro hash p g q hp hprev hq ⟨hlen, hget⟩
    have hheight := hm.nHeight_child hp hprev hq
    have hnonneg := hm.nonneg hq
    have hplace : p.nHeight.toNat = (q.ancestors m).reverse.length := by
      rw [length_reverse]
      omega
    rw [hm.ancestors_child hp hprev hq]
    refine ⟨by rw [length_cons]; omega, forall_mem_cons.mpr ⟨?_, fun a ha => ?_⟩⟩
    · rw [reverse_cons, hplace, getElem?_concat_length]
    · have hlook := hget a ha
      rw [reverse_cons, getElem?_append_left, hlook]
      exact (List.getElem?_eq_some_iff.mp hlook).1

/-- What stands at a place of the reversed walk has that height. -/
theorem nHeight_of_getElem?_reverse {i : ℕ} (ha : (p.ancestors m).reverse[i]? = some a) :
    a.nHeight.toNat = i := by
  have hmem : a ∈ p.ancestors m := mem_reverse.mp (mem_of_getElem? ha)
  have hget := (hm.getElem?_reverse_ancestors hp).2 a hmem
  have hnodup := nodup_reverse.mpr (hm.nodup_ancestors hp).of_map
  exact (List.getElem?_inj (List.getElem?_eq_some_iff.mp hget).1 hnodup).mp (hget.trans ha.symm)

/-- The walk goes on from any entry it meets as the walk from that entry. -/
theorem ancestors_of_append {pre rest : List CBlockIndex} (h : p.ancestors m = pre ++ a :: rest) :
    a.ancestors m = a :: rest := by
  have ha : a ∈ p.ancestors m := by
    rw [h]
    exact mem_append_right _ mem_cons_self
  obtain ⟨pre', hpre', -⟩ := hm.exists_append_of_mem_ancestors hp ha
  have hlen := (hm.getElem?_reverse_ancestors (hm.lookup_ancestor hp ha)).1
  -- The entry stands at one place only, that of its height.
  have hplace : (p.ancestors m).reverse[rest.length]? = some a := by
    rw [h, reverse_append, reverse_cons, append_assoc,
      getElem?_append_right (by rw [length_reverse]), length_reverse, Nat.sub_self]
    rfl
  have hheight := hm.nHeight_of_getElem?_reverse hp hplace
  have htails : (a.ancestors m).length = (a :: rest).length := by
    rw [hlen, length_cons, hheight]
  exact (append_inj' (hpre'.symm.trans h) htails).2

/-- Every walk ends at a root. -/
theorem exists_root : ∃ r ∈ p.ancestors m, r.pprev = none := by
  refine hm.induction ?_ ?_ hp
  · intro hash p hp hroot
    exact ⟨p, hm.self_mem_ancestors hp, hroot⟩
  · intro hash p g q hp hprev hq ih
    obtain ⟨r, hr, hroot⟩ := ih
    exact ⟨r, by rw [hm.ancestors_child hp hprev hq]; exact mem_cons_of_mem _ hr, hroot⟩

end

end BlockMap.IsTree

/-- **The active chain is the path of its tip.** -/
structure ChainIndex.IsChain (I : ChainIndex) (tip : CBlockIndex) : Prop where
  entry : I.mapBlockIndex.lookup tip.hashBlock = some tip
  active : I.chainActive = ((tip.ancestors I.mapBlockIndex).map (·.hashBlock)).reverse

namespace ChainIndex.IsChain

variable (h : I.IsChain tip)

include h

theorem getLast? (hm : I.IsTree) : I.chainActive.getLast? = some tip.hashBlock := by
  rw [h.active, getLast?_reverse, head?_map, hm.head?_ancestors h.entry]
  rfl

theorem chainTip (hm : I.IsTree) : I.chainTip = some tip := by
  rw [ChainIndex.chainTip, h.getLast? hm]
  exact h.entry

theorem unique {tip' : CBlockIndex} (h' : I.IsChain tip') (hm : I.IsTree) : tip' = tip :=
  Option.some.inj ((h'.chainTip hm).symm.trans (h.chainTip hm))

variable (hm : I.IsTree)

include hm

/-- The chain contains exactly the ancestors of its tip. -/
theorem chainContains_iff (hp : I.Has hash p) : I.chainContains p = true ↔ p ∈ tip.ancestors I := by
  have hget := (hm.getElem?_reverse_ancestors h.entry).2
  rw [chainContains, h.active, ← map_reverse, Bool.and_eq_true, decide_eq_true_eq, beq_iff_eq,
    getElem?_map, Option.map_eq_some_iff]
  constructor
  · rintro ⟨-, a, ha, heq⟩
    have hmem : a ∈ tip.ancestors I :=
      mem_reverse.mp (mem_of_getElem? ha)
    rwa [hm.eq_of_hashBlock (hm.lookup_ancestor h.entry hmem) hp heq] at hmem
  · intro hmem
    exact ⟨hm.nonneg hp, p, hget p hmem, rfl⟩

theorem mem_chainActive_iff (hp : I.Has hash p) : hash ∈ I.chainActive ↔ p ∈ tip.ancestors I := by
  rw [h.active, mem_reverse, mem_map]
  constructor
  · rintro ⟨a, ha, heq⟩
    rw [← hm.key hp] at heq
    rwa [hm.eq_of_hashBlock (hm.lookup_ancestor h.entry ha) hp heq] at ha
  · intro hmem
    exact ⟨p, hmem, hm.key hp⟩

/-- The chain is cut at an ancestor of the tip. -/
theorem disconnectTo (hp : p ∈ tip.ancestors I) : (I.disconnectTo p).IsChain p := by
  obtain ⟨pre, hpre, hne⟩ := hm.exists_append_of_mem_ancestors h.entry hp
  have hentry := hm.lookup_ancestor h.entry hp
  refine ⟨hentry, ?_⟩
  have hhead : ∃ rest, (p.ancestors I).map (·.hashBlock) = p.hashBlock :: rest := by
    obtain ⟨rest, hrest⟩ := head?_eq_some_iff.mp (hm.head?_ancestors hentry)
    exact ⟨rest.map (·.hashBlock), by rw [hrest, map_cons]⟩
  obtain ⟨rest, hrest⟩ := hhead
  show I.chainActive.rdropWhile (· ≠ p.hashBlock) = _
  have hdrop : (pre.map (·.hashBlock)).dropWhile (· ≠ p.hashBlock) = [] := by
    rw [dropWhile_eq_nil_iff]
    intro x hx
    obtain ⟨y, hy, rfl⟩ := mem_map.mp hx
    exact decide_eq_true (hne y hy).1
  rw [h.active, rdropWhile, reverse_reverse, hpre, map_append, dropWhile_append, hdrop,
    isEmpty_nil, if_pos rfl]
  show _ = ((p.ancestors I).map (·.hashBlock)).reverse
  rw [hrest, dropWhile_cons_of_neg (by simp)]

end ChainIndex.IsChain

namespace ChainIndex

/-- The only entries without a parent are on the active chain. -/
def Rooted (I : ChainIndex) : Prop :=
  ∀ hash p, I.mapBlockIndex.lookup hash = some p → p.pprev = none → I.chainContains p = true

/-- **Every entry leads back to the active chain**: the fork, and the branch above it. -/
theorem exists_fork (hm : I.IsTree) (hroot : I.Rooted) (hp : I.Has hash p) :
    ∃ fork, I.findFork p = some fork ∧ I.chainContains fork = true ∧
      p.ancestors I = I.branch p ++ fork.ancestors I ∧
      fork ∈ p.ancestors I ∧
      ∀ x ∈ I.branch p, I.chainContains x = false := by
  refine hm.induction ?_ ?_ hp
  · intro hash p hp hprev
    have hin := hroot hash p hp hprev
    have hself := hm.ancestors_root hp hprev
    refine ⟨p, ?_, hin, ?_, ?_, ?_⟩
    · rw [findFork, hself, find?_cons_of_pos hin]
    · rw [branch, hself, takeWhile_cons_of_neg (by simp [hin]), nil_append]
    · rw [hself]
      exact mem_singleton_self p
    · rw [branch, hself, takeWhile_cons_of_neg (by simp [hin])]
      exact fun x hx => absurd hx not_mem_nil
  · intro hash p g q hp hprev hq ih
    have hcons := hm.ancestors_child hp hprev hq
    cases hin : I.chainContains p with
    | true =>
      refine ⟨p, ?_, hin, ?_, hm.self_mem_ancestors hp, ?_⟩
      · rw [findFork, hcons, find?_cons_of_pos hin]
      · rw [branch, hcons, takeWhile_cons_of_neg (by simp [hin]), nil_append]
      · rw [branch, hcons, takeWhile_cons_of_neg (by simp [hin])]
        exact fun x hx => absurd hx not_mem_nil
    | false =>
      obtain ⟨fork, hfork, hforkin, happ, hmem, hout⟩ := ih
      have hbranch : I.branch p = p :: I.branch q := by
        rw [branch, hcons, takeWhile_cons_of_pos (by simp [hin])]
        rfl
      rw [hbranch]
      refine ⟨fork, ?_, hforkin, by rw [hcons, happ, cons_append], ?_,
        forall_mem_cons.mpr ⟨hin, hout⟩⟩
      · rw [findFork, hcons, find?_cons_of_neg (by simp [hin])]
        exact hfork
      · rw [hcons]
        exact mem_cons_of_mem _ hmem

end ChainIndex

/-! ## The steps of a reorganisation

Whatever `ActivateBestChain` does to the block index, it does in five kinds of steps: it takes note
of an invalid block, it drops the candidates above a failed block, it cuts the active chain, it
connects a block to the tip, and it marks a block that cannot be connected. A step changes entries
in their status only.
-/

/-! ## Chains that may become active -/

namespace CBlockIndex

/-- No block of the chain is marked as failed. -/
def Unmarked (m : BlockMap) (p : CBlockIndex) : Prop :=
  ∀ a ∈ p.ancestors m, a.nStatus.failed = false

instance (m : BlockMap) (p : CBlockIndex) : Decidable (p.Unmarked m) :=
  inferInstanceAs (Decidable (∀ a ∈ p.ancestors m, a.nStatus.failed = false))

/-- **A chain that may become active**, as far as the index knows. -/
structure Usable (m : BlockMap) (p : CBlockIndex) : Prop where
  complete : p.Complete m
  unmarked : p.Unmarked m

/-- A usable chain of which every block connects. The genesis block is not disconnected, so
that nothing is asked of it. -/
structure Connectable (connects : Uint256 → Bool) (m : BlockMap) (p : CBlockIndex) : Prop
    extends Usable m p where
  connects : ∀ a ∈ p.ancestors m, a.pprev ≠ none → connects a.hashBlock = true

theorem Usable.of_mem_ancestors (h : p.Usable m) (hm : m.IsTree) (hp : m.lookup hash = some p)
    (ha : a ∈ p.ancestors m) : a.Usable m where
  complete := fun b hb => h.complete b (hm.ancestors_subset hp ha hb)
  unmarked := fun b hb => h.unmarked b (hm.ancestors_subset hp ha hb)

theorem Connectable.of_mem_ancestors (h : p.Connectable connects m) (hm : m.IsTree)
    (hp : m.lookup hash = some p) (ha : a ∈ p.ancestors m) : a.Connectable connects m where
  toUsable := h.toUsable.of_mem_ancestors hm hp ha
  connects := fun b hb => h.connects b (hm.ancestors_subset hp ha hb)

/-- A block that connects to the end of a connectable chain makes a connectable chain. -/
theorem Usable.connectable_of_parent (h : p.Usable m) (hm : m.IsTree)
    (hp : m.lookup hash = some p) (hprev : p.pprev = some a.hashBlock)
    (ha : m.lookup a.hashBlock = some a) (hparent : a.Connectable connects m)
    (hconn : connects p.hashBlock = true) : p.Connectable connects m where
  toUsable := h
  connects := by
    intro b hb
    rw [hm.ancestors_child hp hprev ha, mem_cons] at hb
    rcases hb with rfl | hb
    · exact fun _ => hconn
    · exact hparent.connects b hb

end CBlockIndex

/-! ## Changes of the status -/

/-- The two entries differ in their validity level and their marks only. -/
structure Remarked (p p' : CBlockIndex) : Prop where
  same : p' = { p with nStatus := p'.nStatus }
  haveData : p'.nStatus.haveData = p.nStatus.haveData

namespace Remarked

theorem refl (p : CBlockIndex) : Remarked p p := ⟨rfl, rfl⟩

theorem markFailedValid (p : CBlockIndex) : Remarked p p.markFailedValid := ⟨rfl, rfl⟩

theorem markFailedChild (p : CBlockIndex) : Remarked p p.markFailedChild := ⟨rfl, rfl⟩

theorem connected (p : CBlockIndex) : Remarked p p.connected := by
  unfold CBlockIndex.connected
  split
  · exact refl p
  · exact ⟨rfl, BlockStatus.raise_haveData _ _⟩

theorem changeAt {f : CBlockIndex → CBlockIndex} (hf : ∀ p, Remarked p (f p)) (hash : Uint256)
    (p : CBlockIndex) : Remarked p (changeAt hash f p) := by
  unfold Passion.changeAt
  split
  · exact hf p
  · exact refl p

variable (h : Remarked p p')

include h

theorem hashBlock : p'.hashBlock = p.hashBlock := by rw [h.same]

theorem pprev : p'.pprev = p.pprev := by rw [h.same]

theorem nHeight : p'.nHeight = p.nHeight := by rw [h.same]

theorem nChainTx : p'.nChainTx = p.nChainTx := by rw [h.same]

theorem nChainWork : p'.nChainWork = p.nChainWork := by rw [h.same]

theorem nSequenceId : p'.nSequenceId = p.nSequenceId := by rw [h.same]

end Remarked

@[simp] theorem CBlockIndex.connected_failed (p : CBlockIndex) :
    p.connected.nStatus.failed = p.nStatus.failed := by
  unfold connected
  split
  · rfl
  · rw [BlockStatus.raise_failed]
    rfl

/-- **The entries of the index were rewritten in place** by `f`. -/
structure InPlace (I J : ChainIndex) (f : CBlockIndex → CBlockIndex) : Prop where
  map : ∀ k, J.mapBlockIndex.lookup k = (I.mapBlockIndex.lookup k).map f
  place : KeepsPlace fun p p' => p' = f p
  address : J.address = I.address

namespace InPlace

variable (h : InPlace I J f)

include h

theorem hashBlock (p : CBlockIndex) : (f p).hashBlock = p.hashBlock :=
  (h.place p _ rfl).1

theorem pprev (p : CBlockIndex) : (f p).pprev = p.pprev :=
  (h.place p _ rfl).2.1

theorem isTree (hm : I.IsTree) : J.IsTree :=
  (BlockMap.related_of_map h.map).isTree h.place hm

theorem lookup (hp : I.mapBlockIndex.lookup k = some p) :
    J.mapBlockIndex.lookup k = some (f p) := by
  rw [h.map, hp, Option.map_some]

theorem exists_lookup (hp' : J.mapBlockIndex.lookup k = some p') :
    ∃ p, I.mapBlockIndex.lookup k = some p ∧ f p = p' := by
  rw [h.map] at hp'
  exact Option.map_eq_some_iff.mp hp'

variable (hm : I.IsTree)

include hm

theorem ancestors (hp : I.Has k p) : (f p).ancestors J = (p.ancestors I).map f :=
  hm.ancestors_map h.place h.map hp

/-- An entry descends from another as before. -/
theorem mem_ancestors_iff (hp : I.Has k p) (ha : I.Has a.hashBlock a) :
    f a ∈ (f p).ancestors J ↔ a ∈ p.ancestors I := by
  rw [h.ancestors hm hp, mem_map]
  constructor
  · rintro ⟨b, hb, heq⟩
    have hhash := congrArg CBlockIndex.hashBlock heq
    rw [h.hashBlock, h.hashBlock] at hhash
    rwa [← hm.eq_of_hashBlock (hm.lookup_ancestor hp hb) ha hhash]
  · exact fun hin => ⟨a, hin, rfl⟩

/-- The active chain is still the path of its tip. -/
theorem isChain (hchain : I.IsChain tip) (hactive : J.chainActive = I.chainActive) :
    J.IsChain (f tip) where
  entry := by
    rw [h.hashBlock]
    exact h.lookup hchain.entry
  active := by
    have hhash : (fun p => p.hashBlock) ∘ f = fun p => p.hashBlock :=
      funext h.hashBlock
    rw [hactive, hchain.active, h.ancestors hm hchain.entry, map_map, hhash]

/-- The chain contains the ancestors of its tip. -/
theorem chainContains_iff (htip : I.Has k tip) (hchain : J.IsChain (f tip))
    (hp : I.Has p.hashBlock p) : J.chainContains p = true ↔ p ∈ tip.ancestors I := by
  rw [← h.mem_ancestors_iff hm htip hp, ← hchain.chainContains_iff (h.isTree hm) (h.lookup hp),
    ChainIndex.chainContains, ChainIndex.chainContains, h.hashBlock, (h.place p _ rfl).2.2]

end InPlace

/-- **The entries of the index were changed in their status** by `f`. -/
structure Change (I J : ChainIndex) (f : CBlockIndex → CBlockIndex) : Prop
    extends InPlace I J f where
  remarked : ∀ p, Remarked p (f p)

namespace Change

theorem of_map (hmap : ∀ k, J.mapBlockIndex.lookup k = (I.mapBlockIndex.lookup k).map f)
    (hf : ∀ p, Remarked p (f p)) (haddress : J.address = I.address) : Change I J f where
  map := hmap
  place := by
    rintro p _ rfl
    exact ⟨(hf p).hashBlock, (hf p).pprev, (hf p).nHeight⟩
  address := haddress
  remarked := hf

theorem of_same_map (hmap : J.mapBlockIndex = I.mapBlockIndex) (haddress : J.address = I.address) :
    Change I J id :=
  of_map (fun k => by rw [hmap, Option.map_id, id]) Remarked.refl haddress

/-- The entries are all that a change is about. -/
theorem congr {J' : ChainIndex} (h : Change I J f) (hmap : J'.mapBlockIndex = J.mapBlockIndex)
    (haddress : J'.address = J.address) : Change I J' f :=
  of_map (fun k => by rw [hmap, h.map]) h.remarked (haddress.trans h.address)

theorem of_modify {hash : Uint256} (hm : I.IsTree) (hf : ∀ p, Remarked p (f p))
    (hmap : J.mapBlockIndex = I.mapBlockIndex.modify hash f) (haddress : J.address = I.address) :
    Change I J (changeAt hash f) := by
  refine of_map (fun k => ?_) (Remarked.changeAt hf hash) haddress
  rw [hmap, BlockMap.lookup_modify]
  cases hk : I.mapBlockIndex.lookup k with
  | none => simp
  | some p =>
    have hkey := hm.key hk
    rw [Option.map_some, Option.map_some, changeAt, hkey]
    split <;> rfl

theorem rank (h : Change I J f) (p : CBlockIndex) : J.rank (f p) = I.rank p := by
  rw [ChainIndex.rank, ChainIndex.rank, h.address, (h.remarked p).nChainWork,
    (h.remarked p).nSequenceId, (h.remarked p).hashBlock]

section

variable (h : Change I J f) (hm : I.IsTree) (hp : I.Has k p)

include h hm hp

theorem complete_iff : (f p).Complete J ↔ p.Complete I := by
  rw [Complete, h.ancestors hm hp, forall_mem_map]
  exact forall₂_congr fun a _ => by rw [(h.remarked a).haveData]

/-- A chain none of whose blocks was marked stays usable. -/
theorem usable (huse : p.Usable I) (hclean : ∀ a ∈ p.ancestors I, (f a).nStatus.failed = false) :
    (f p).Usable J where
  complete := (h.complete_iff hm hp).mpr huse.complete
  unmarked := by
    rw [Unmarked, h.ancestors hm hp, forall_mem_map]
    exact hclean

theorem connectable (hc : p.Connectable connects I)
    (hclean : ∀ a ∈ p.ancestors I, (f a).nStatus.failed = false) :
    (f p).Connectable connects J where
  toUsable := h.usable hm hp hc.toUsable hclean
  connects := by
    rw [h.ancestors hm hp, forall_mem_map]
    intro a ha hprev
    rw [(h.remarked a).pprev] at hprev
    rw [(h.remarked a).hashBlock]
    exact hc.connects a ha hprev

end

theorem trans {K : ChainIndex} {g : CBlockIndex → CBlockIndex} (h : Change I J f)
    (h' : Change J K g) : Change I K (g ∘ f) := by
  refine of_map (fun k => by rw [h'.map, h.map, Option.map_map]) (fun p => ?_)
    (h'.address.trans h.address)
  have h1 := h.remarked p
  have h2 := h'.remarked (f p)
  refine ⟨?_, h2.haveData.trans h1.haveData⟩
  rw [Function.comp_apply, h2.same, h1.same]

end Change

/-- What is marked as failed stays marked. -/
def KeepsMarks (f : CBlockIndex → CBlockIndex) : Prop :=
  ∀ p, p.nStatus.failed = true → (f p).nStatus.failed = true

/-- **A change of the index that takes no failure mark away.** -/
structure Marking (I J : ChainIndex) (f : CBlockIndex → CBlockIndex) : Prop
    extends Change I J f where
  keeps : KeepsMarks f

namespace Marking

theorem of_same_map (hmap : J.mapBlockIndex = I.mapBlockIndex) (haddress : J.address = I.address) :
    Marking I J id :=
  ⟨Change.of_same_map hmap haddress, fun _ h => h⟩

theorem of_modify {hash : Uint256} (hm : I.IsTree) (hf : ∀ p, Remarked p (f p))
    (hkeeps : KeepsMarks f) (hmap : J.mapBlockIndex = I.mapBlockIndex.modify hash f)
    (haddress : J.address = I.address) : Marking I J (changeAt hash f) := by
  refine ⟨Change.of_modify hm hf hmap haddress, fun p hfail => ?_⟩
  unfold changeAt
  split
  · exact hkeeps p hfail
  · exact hfail

theorem trans {K : ChainIndex} {g : CBlockIndex → CBlockIndex} (h : Marking I J f)
    (h' : Marking J K g) : Marking I K (g ∘ f) :=
  ⟨h.toChange.trans h'.toChange, fun p hfail => h'.keeps _ (h.keeps p hfail)⟩

theorem not_failed (h : Marking I J f) (hp : (f p).nStatus.failed = false) :
    p.nStatus.failed = false := by
  cases hfail : p.nStatus.failed with
  | false => rfl
  | true => rw [h.keeps p hfail] at hp; cases hp

theorem unmarked (h : Marking I J f) (hm : I.IsTree) (hp : I.Has k p) (hun : (f p).Unmarked J) :
    p.Unmarked I := by
  rw [Unmarked, h.ancestors hm hp, forall_mem_map] at hun
  exact fun a ha => h.not_failed (hun a ha)

end Marking

/-! ## The steps -/

namespace ChainIndex

/-- The block is connected to the tip. -/
def extend (I : ChainIndex) (pindexNew : CBlockIndex) : ChainIndex :=
  { I.modify pindexNew.hashBlock connected with
    chainActive := I.chainActive ++ [pindexNew.hashBlock] }

/-- Candidates above a failed block are marked and taken out of the set. -/
def dropAbove (I : ChainIndex) (pindexTest : CBlockIndex) (above : List CBlockIndex) : ChainIndex :=
  { I with
    mapBlockIndex := above.foldl (fun m p => m.modify p.hashBlock markFailedChild) I
    setBlockIndexCandidates := I.setBlockIndexCandidates.filter fun h =>
      h ∉ above.map (·.hashBlock) ∧ h ≠ pindexTest.hashBlock }

/-- **The block may be connected to the tip**: it is a child of it, and its chain is usable. -/
structure Next (I : ChainIndex) (tip x : CBlockIndex) : Prop where
  chain : I.IsChain tip
  entry : I.mapBlockIndex.lookup x.hashBlock = some x
  pprev : x.pprev = some tip.hashBlock
  usable : x.Usable I

/-- **One step of a reorganisation.** -/
inductive Step (connects : Uint256 → Bool) : ChainIndex → ChainIndex → Prop
  /-- The best invalid block is noted. -/
  | note (I : ChainIndex) (b : Option Uint256) : Step connects I { I with pindexBestInvalid := b }
  /-- The candidates above a failed block are dropped. -/
  | drop {I : ChainIndex} {t : CBlockIndex} {above : List CBlockIndex}
      (ht : I.mapBlockIndex.lookup t.hashBlock = some t) (hfailed : t.nStatus.failed = true)
      (habove : ∀ p ∈ above, I.mapBlockIndex.lookup p.hashBlock = some p ∧
        t ∈ p.ancestors I ∧ p.Complete I) : Step connects I (I.dropAbove t above)
  /-- The active chain is cut. -/
  | cut {I : ChainIndex} {tip fork : CBlockIndex} (htip : I.IsChain tip)
      (hfork : fork ∈ tip.ancestors I) : Step connects I (I.disconnectTo fork)
  /-- A block is connected to the tip, and the candidates that are worse are dropped. -/
  | connect {I J : ChainIndex} {tip x : CBlockIndex} (hnext : I.Next tip x)
      (hconn : connects x.hashBlock = true)
      (hprune : (I.extend x).pruneBlockIndexCandidates = some J) : Step connects I J
  /-- A block does not connect. -/
  | fail {I : ChainIndex} {tip x : CBlockIndex} (hnext : I.Next tip x)
      (hconn : connects x.hashBlock = false) :
      Step connects I ((I.modify x.hashBlock markFailedValid).eraseCandidate x.hashBlock)

/-- A reorganisation. -/
def Steps (connects : Uint256 → Bool) : ChainIndex → ChainIndex → Prop :=
  Relation.ReflTransGen (Step connects)

end ChainIndex

end Passion
