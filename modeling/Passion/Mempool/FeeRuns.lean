import Passion.Mempool.PackageRuns

/-!
# Modified fees through a run of calls

An entry keeps the sum of the modified fees over its ancestors and over its descendants. A delta
that is set while the transaction is in the pool reaches the sums of its ancestors; those of its
descendants are left as they are, and so are no sums any more. Fees and deltas are 64-bit numbers:
the sums are right up to a multiple of `2 ^ 64`, and right where they fit.
-/

namespace Passion

open Finset Except Traversal
open Dag (Side mem_above mem_below span)
open MachineNumber

variable {D : Type}

namespace TxMemPool

variable (E : PoolEnv D) (p : TxMemPool D)

/-- The modified fee of the transaction at an id: the fee, and the deltas that were set. -/
def feeAt (x : Uint256) : ℤ :=
  ((p.mapTx.lookup x).map fun e => e.nFee.toInt + (p.deltaOf x).toInt).getD 0

/-- **Modified fees are exact.** -/
def FeesExact : Prop :=
  ∀ it e, p.mapTx.lookup it = some e →
    e.nModFeesWithAncestors.toInt = ∑ a ∈ p.ancestors it, p.feeAt a ∧
    e.nModFeesWithDescendants.toInt = ∑ b ∈ p.descendants it, p.feeAt b

/-- They are exact up to a multiple of `2 ^ 64`. -/
def FeesWrapped : Prop :=
  ∀ it e, p.mapTx.lookup it = some e →
    e.nModFeesWithAncestors = wrap (∑ a ∈ p.ancestors it, p.feeAt a) ∧
    e.nModFeesWithDescendants = wrap (∑ b ∈ p.descendants it, p.feeAt b)

/-- The sums of the modified fees fit into 64 bits. -/
def SumsFit : Prop :=
  ∀ it e, p.mapTx.lookup it = some e →
    Fits64 (∑ a ∈ p.ancestors it, p.feeAt a) ∧ Fits64 (∑ b ∈ p.descendants it, p.feeAt b)

/-- What a caller has to see to, where no block is disconnected. -/
def Contract (c : PoolCall D) : Prop :=
  (ReorgPool.mk p []).Completes E (.call c) ∧ (ReorgPool.mk p []).Orderly E (.call c)

/-- A delta other than zero is set only for a transaction that none in the pool spends from. -/
def PrioritisesLeaves : PoolCall D → Prop
  | .prioritiseTransaction hash _ nFeeDelta => nFeeDelta ≠ 0 → ∀ b, ¬ p.Spends hash b
  | _ => True

/-- `PrioritiseTransaction` adds its delta to those that were set before. -/
def Accumulates : PoolCall D → Prop
  | .prioritiseTransaction hash d nFeeDelta =>
    ∀ q, p.prioritiseTransaction E hash d nFeeDelta = .ok q →
      (q.deltaOf hash).toInt = (p.deltaOf hash).toInt + nFeeDelta.toInt
  | _ => True

/-- The sum of the deltas fits into 64 bits. -/
def DeltaFits : PoolCall D → Prop
  | .prioritiseTransaction hash _ nFeeDelta =>
    Fits64 ((p.deltaOf hash).toInt + nFeeDelta.toInt)
  | _ => True

/-- The fee in the statistics. -/
def fee : Figures →+ Int64 where
  toFun t := t.2.1
  map_zero' := rfl
  map_add' _ _ := rfl

theorem fee_apply (t : Figures) : fee t = t.2.1 := rfl

variable {E p} {q : TxMemPool D} {G : Dag Uint256} {side : Side}

theorem feesExact_iff : p.FeesExact ↔ p.FeesWrapped ∧ p.SumsFit := by
  simp only [FeesExact, FeesWrapped, SumsFit, toInt_eq_iff, ← forall_and, and_and_and_comm]

theorem Credited.fee_weight (h : Credited p) (x : Uint256) :
    fee (p.weight side x) = wrap (p.feeAt x) := by
  unfold weight feeAt
  cases he : p.mapTx.lookup x with
  | none => rfl
  | some e =>
    have hsum : wrap (e.nFee.toInt + (p.deltaOf x).toInt) = e.modifiedFee := by
      rw [map_add, wrap_toInt, wrap_toInt, ← h x e he]
      rfl
    rw [Option.map_some, Option.map_some, Option.getD_some, Option.getD_some, hsum]
    cases side <;> rfl

/-- Modified fees are right up to wrapping where their sums are those of the graph. -/
theorem Tracks.feesWrapped_iff (h : Tracks E [] G p) (hcredited : Credited p) :
    p.FeesWrapped ↔ ∀ side, Exact side fee G p := by
  have hsum : ∀ side x, ∑ a ∈ G.span side x, fee (p.weight side a) =
      wrap (∑ a ∈ G.span side x, p.feeAt a) := fun side x => by
    rw [map_sum]
    exact sum_congr rfl fun a _ => hcredited.fee_weight a
  constructor
  · intro hexact side x hx
    obtain ⟨e, he⟩ := exists_lookup ((h.shows.nodes x).mpr hx)
    obtain ⟨hup, hdown⟩ := hexact x e he
    rw [h.ancestors_eq] at hup
    rw [h.descendants_eq] at hdown
    rw [stat_eq he, hsum]
    cases side with
    | up => exact hup
    | down => exact hdown
  · intro hexact it e he
    have hit : it ∈ G.nodes := (h.shows.nodes it).mp (AList.lookup_isSome.mp (by simp [he]))
    have hfee : ∀ side, fee (e.stat side) = wrap (∑ a ∈ G.span side it, p.feeAt a) := fun side => by
      rw [← hsum, ← hexact side it hit, stat_eq he]
    rw [h.ancestors_eq, h.descendants_eq]
    exact ⟨hfee .up, hfee .down⟩

/-! ## A priority -/

section Prioritised

variable {hash : Uint256} {nFeeDelta : Int64}

/-- A priority reaches the entry and, in the sums over descendants, what is above it. -/
theorem Prioritised.exact_iff (hq : Prioritised G hash nFeeDelta nFeeDelta p q)
    (h : Exact side fee G p) : Exact side fee G q ↔ ∀ x ∈ G.nodes, nFeeDelta ≠ 0 →
      (hash ∈ G.span side x ↔ x = hash ∨ side = .down ∧ x ∈ G.above hash) := by
  refine forall₂_congr fun x hx => ?_
  -- the sum over a package gains the delta where the transaction is part of it
  have hsum : ∑ a ∈ G.span side x, fee (q.weight side a) =
      ∑ a ∈ G.span side x, fee (p.weight side a) +
        if hash ∈ G.span side x then nFeeDelta else 0 := by
    rw [← sum_ite_eq' (G.span side x) hash fun _ => nFeeDelta, ← sum_add_distrib]
    refine sum_congr rfl fun a _ => ?_
    rw [hq.weight]
    split <;> rfl
  -- the entry gains it where the code adds it
  have hstat : fee (q.stat side x) = fee (p.stat side x) +
      if x = hash ∨ side = .down ∧ x ∈ G.above hash then nFeeDelta else 0 := by
    rw [hq.stat side x hx, map_add, map_add, add_assoc]
    by_cases hxh : x = hash
    · simp [hxh, fee_apply]
    · simp only [hxh, mem_erase, ne_eq, not_false_eq_true, true_and, false_or, if_false, map_zero,
        zero_add]
      split <;> rfl
  have hite : ∀ (a b) [Decidable a] [Decidable b],
      (if a then nFeeDelta else 0) = (if b then nFeeDelta else 0) ↔ (nFeeDelta ≠ 0 → (b ↔ a)) := by
    intro a b _ _
    by_cases ha : a <;> by_cases hb : b <;> simp [ha, hb, eq_comm]
  rw [hsum, hstat, h x hx, add_right_inj, hite]

theorem Prioritised.exact_down (hash_mem : hash ∈ G.nodes)
    (hq : Prioritised G hash nFeeDelta nFeeDelta p q) (h : Exact .down fee G p) :
    Exact .down fee G q := by
  refine (hq.exact_iff h).mpr fun x hx _ => ?_
  have hflip : hash ∈ G.below x ↔ x ∈ G.above hash := by
    rw [mem_below, mem_above, and_iff_right hash_mem, and_iff_right hx]
  have hself : hash ∈ G.above hash := mem_above.mpr ⟨hash_mem, .refl⟩
  simp only [span, hflip, true_and]
  exact ⟨.inr, fun hx => hx.elim (fun heq => heq ▸ hself) id⟩

/-- **A priority does not reach the descendants**: sums over ancestors stay right only if there
are none, or nothing is added. -/
theorem Prioritised.exact_up_iff (hash_mem : hash ∈ G.nodes)
    (hq : Prioritised G hash nFeeDelta nFeeDelta p q) (h : Exact .up fee G p) :
    Exact .up fee G q ↔ (nFeeDelta ≠ 0 → G.children hash = ∅) := by
  rw [hq.exact_iff h]
  simp only [span, reduceCtorEq, false_and, or_false, mem_above, hash_mem, true_and]
  constructor
  · intro hexact hne
    refine eq_empty_of_forall_notMem fun c hc => ?_
    obtain rfl := (hexact c (G.mem hc).2 hne).mp (.single hc)
    exact G.acyclic hc .refl
  · intro hleaf x _ hne
    refine ⟨fun hreach => ?_, fun heq => heq ▸ .refl⟩
    rcases Relation.ReflTransGen.cases_head hreach with heq | ⟨c, hc, -⟩
    · exact heq.symm
    · rw [hleaf hne] at hc
      cases hc

end Prioritised

/-- The deltas after `PrioritiseTransaction`, and that the entries know them. -/
theorem prioritiseTransaction_deltas (hash : Uint256) (dPriorityDelta : D) (nFeeDelta : Int64) :
    (p.prioritiseTransaction E hash dPriorityDelta nFeeDelta).Ensures fun q =>
      q.deltaOf hash = p.deltaOf hash + nFeeDelta ∧ (Credited p → Credited q) := by
  have hsum : (((p.mapDeltas.lookup hash).getD (E.ops.ofInt 0, 0)).2 + nFeeDelta) =
      p.deltaOf hash + nFeeDelta := by
    unfold deltaOf
    cases p.mapDeltas.lookup hash <;> rfl
  unfold prioritiseTransaction
  simp only
  split
  · refine Meets.bind (P := fun q => q.deltaOf hash = p.deltaOf hash + nFeeDelta ∧
      (Credited p → Credited q)) ?_ fun q hq => (meets_true _).bind fun s _ =>
      (q.modifyAll_frame s fun e => e.updateDescendantState_base _ _ _).mono
        fun r hr => ⟨by rw [deltaOf, hr.mapDeltas, ← deltaOf, hq.1], fun h => hr.credited (hq.2 h)⟩
    unfold modify entry
    split
    · exact trivial
    · refine ⟨by simp [deltaOf, hsum], fun h it n hn => ?_⟩
      by_cases hit : it = hash
      · subst hit
        rw [AList.lookup_insert] at hn
        cases hn
        simp [deltaOf, PoolEntry.updateFeeDelta]
      · rw [AList.lookup_insert_ne hit] at hn
        rw [h it n hn, deltaOf, deltaOf, AList.lookup_insert_ne hit]
  · next hmem =>
    refine ⟨by simp [deltaOf, hsum], fun h it n hn => ?_⟩
    have hit : it ≠ hash := by
      rintro rfl
      exact hmem (AList.lookup_isSome.mp (by rw [hn]; rfl))
    rw [h it n hn, deltaOf, deltaOf, AList.lookup_insert_ne hit]

/-! ## Runs -/

/-- What holds as long as priorities are set for leaves only. -/
structure Sums (E : PoolEnv D) (G : Dag Uint256) (p : TxMemPool D) : Prop where
  tracks : Tracks E [] G p
  credited : Credited p
  exact : ∀ side, Exact side fee G p

theorem waiting_eq_nil (p : TxMemPool D) (c : PoolCall D) : (ReorgPool.mk p []).waiting c = [] := by
  cases c <;> rfl

/-- A call that sets no priority. -/
theorem Sums.step (h : Sums E G p) {c : PoolCall D} (hc : p.Contract E c)
    (hnot : ∀ hash d f, c ≠ .prioritiseTransaction hash d f) (hq : p.step E c = .ok q) :
    ∃ G', Sums E G' q := by
  have hstep := ReorgPool.follows_step (s := ⟨p, []⟩) h.tracks hc.1 hc.2
  have hq' : (ReorgPool.mk p []).step E (.call c) = .ok ⟨q, []⟩ := by
    rw [ReorgPool.step, hq, waiting_eq_nil]
    rfl
  obtain ⟨G', hG'⟩ := hstep.of_ok hq'
  have hkeeps := hG'.keeps fun hash d f heq => hnot hash d f (ReorgCall.call.inj heq)
  exact ⟨G', hG'.tracks, hkeeps.credited h.credited, fun side => hkeeps.exact side _ _ (h.exact side)⟩

/-- A call that sets a priority. -/
theorem Sums.prioritise (h : Sums E G p) {hash : Uint256} {d : D} {nFeeDelta : Int64}
    (hq : p.prioritiseTransaction E hash d nFeeDelta = .ok q) :
    (q.FeesWrapped → nFeeDelta ≠ 0 → ∀ b, ¬ p.Spends hash b) ∧
      ((nFeeDelta ≠ 0 → ∀ b, ¬ p.Spends hash b) → Sums E G q) := by
  have htracks := (h.tracks.prioritiseTransaction hash d nFeeDelta).of_ok hq
  have hcredited := ((prioritiseTransaction_deltas hash d nFeeDelta).of_ok hq).2 h.credited
  cases he : p.mapTx.lookup hash with
  | none =>
    -- the delta waits for the transaction, and no entry changes
    have hmem : hash ∉ p.mapTx := AList.lookup_eq_none.mp he
    refine ⟨fun _ _ b hb => hmem hb.1, fun _ => ⟨htracks, hcredited, ?_⟩⟩
    unfold prioritiseTransaction at hq
    simp only [hmem] at hq
    cases hq
    exact h.exact
  | some e =>
    have hash_mem : hash ∈ G.nodes :=
      (h.tracks.shows.nodes hash).mp (AList.lookup_isSome.mp (by simp [he]))
    have hprio := (h.tracks.shows.yields_prioritiseTransaction h.tracks.counted he d
      nFeeDelta).of_ok hq
    rw [h.credited hash e he, add_sub_cancel_left] at hprio
    have hiff := hprio.exact_up_iff hash_mem (h.exact .up)
    have hleaf : G.children hash = ∅ ↔ ∀ b, ¬ p.Spends hash b := by
      rw [eq_empty_iff_forall_notMem]
      simp [h.tracks.children]
    rw [hleaf] at hiff
    refine ⟨fun hexact => hiff.mp ((htracks.feesWrapped_iff hcredited).mp hexact .up),
      fun hcond => ⟨htracks, hcredited, fun side => ?_⟩⟩
    cases side with
    | up => exact hiff.mpr hcond
    | down => exact hprio.exact_down hash_mem (h.exact .down)

theorem sums_empty (n : ℕ) : Sums E .empty (empty n : TxMemPool D) where
  tracks := tracks_empty List.nodup_nil rfl rfl (indexed_empty n)
  credited it e he := by simp [empty] at he
  exact _ x hx := absurd hx (notMem_empty x)

variable {n : ℕ} {l : List (PoolCall D)}

/-- Up to wrapping, sums are right exactly if deltas are set for leaves. -/
theorem always_feesWrapped_iff
    (hcontract : Run.EachStep (step E) (empty n) (fun p => p.Contract E) l) :
    Run.Always (step E) (empty n) FeesWrapped l ↔
      Run.EachStep (step E) (empty n) PrioritisesLeaves l := by
  refine Run.always_iff_of_invariant (fun p => ∃ G, Sums E G p) ⟨_, sums_empty n⟩
    (fun p ⟨G, h⟩ => (h.tracks.feesWrapped_iff h.credited).mpr h.exact) ?_
  rintro pre c post s t hl hpre hstep ⟨G, h⟩
  -- only a priority can spoil the sums
  by_cases hprio : ∃ hash d f, c = .prioritiseTransaction hash d f
  · obtain ⟨hash, d, f, rfl⟩ := hprio
    obtain ⟨hneeds, hkeeps⟩ := h.prioritise hstep
    exact ⟨hneeds, fun hcond => ⟨G, hkeeps hcond⟩⟩
  · have hnot : ∀ hash d f, c ≠ .prioritiseTransaction hash d f := fun hash d f heq =>
      hprio ⟨hash, d, f, heq⟩
    refine ⟨fun _ => ?_, fun _ => h.step (hcontract pre c post s t hl hpre hstep) hnot hstep⟩
    cases c with
    | prioritiseTransaction hash d f => exact absurd rfl (hnot hash d f)
    | _ => exact trivial

theorem accumulates_iff {c : PoolCall D} (hq : p.step E c = .ok q) :
    p.Accumulates E c ↔ p.DeltaFits c := by
  cases c with
  | prioritiseTransaction hash d nFeeDelta =>
    have hdelta := ((prioritiseTransaction_deltas hash d nFeeDelta).of_ok hq).1
    have hwrap : p.deltaOf hash + nFeeDelta =
        wrap ((p.deltaOf hash).toInt + nFeeDelta.toInt) := by
      rw [map_add, wrap_toInt, wrap_toInt]
    constructor
    · intro h
      exact (toInt_eq_iff.mp (h q hq)).2
    · intro h r hr
      obtain rfl : q = r := ok.inj (hq.symm.trans hr)
      exact toInt_eq_iff.mpr ⟨hdelta.trans hwrap, h⟩
  | _ => exact Iff.rfl

/-- **Modified fees through a run.** Where each caller sees to what it has to, deltas accumulate
and all sums of modified fees are right after every call exactly if a delta other than zero is
only ever set for a transaction that none in the pool spends from, and the sums of the deltas and
of the modified fees fit into 64 bits. -/
theorem modifiedFees_exact_iff
    (hcontract : Run.EachStep (step E) (empty n) (fun p => p.Contract E) l) :
    Run.Always (step E) (empty n) FeesExact l ∧ Run.EachStep (step E) (empty n) (Accumulates E) l ↔
      Run.EachStep (step E) (empty n) PrioritisesLeaves l ∧
      Run.EachStep (step E) (empty n) DeltaFits l ∧ Run.Always (step E) (empty n) SumsFit l := by
  have hsums : Run.Always (step E) (empty n) FeesExact l ↔
      Run.Always (step E) (empty n) FeesWrapped l ∧ Run.Always (step E) (empty n) SumsFit l := by
    simp only [Run.Always, feesExact_iff, ← forall_and]
  have hdeltas : Run.EachStep (step E) (empty n) (Accumulates E) l ↔
      Run.EachStep (step E) (empty n) DeltaFits l := by
    refine forall₅_congr fun pre c post s t => forall₃_congr fun _ _ hstep => ?_
    exact accumulates_iff hstep
  rw [hsums, always_feesWrapped_iff hcontract, hdeltas, and_assoc, and_comm (b := _ ∧ _)]
  tauto

end TxMemPool

namespace PackageSample

open TxMemPool TxMemPool.PoolSample

/-- Deltas are set for `child` before and after it enters. -/
def raiseChild : List (PoolCall Unit) :=
  [.prioritiseTransaction (child.getHash env.toHashing) () 7,
    .addUnchecked (entryOf parent) 0 false, .addUnchecked (entryOf child) 0 false,
    .prioritiseTransaction (child.getHash env.toHashing) () (-3)]

/-- `parent` and `child` enter, and a delta is set for `parent`. -/
def raiseParent : List (PoolCall Unit) :=
  [.addUnchecked (entryOf parent) 0 false, .addUnchecked (entryOf child) 0 false,
    .prioritiseTransaction (parent.getHash env.toHashing) () 5]

theorem eachStep_contract {l : List (PoolCall Unit)}
    (h : Run.EachAction (TxMemPool.step env) (empty 0)
      (fun p c => rejoins ⟨p, []⟩ (.call c) = true ∧ enters ⟨p, []⟩ (.call c) = true) l) :
    Run.EachStep (TxMemPool.step env) (empty 0) (fun p => p.Contract env) l :=
  fun pre c post p _ hl hpre _ =>
    ⟨completes_of_rejoins (h pre c post p hl hpre).1, orderly_of_enters (h pre c post p hl hpre).2⟩

/-- A check of the deltas: they are small, and set for what no entry spends. -/
def raises (p : TxMemPool Unit) : PoolCall Unit → Bool
  | .prioritiseTransaction hash _ nFeeDelta =>
    Fits64 ((p.deltaOf hash).toInt + nFeeDelta.toInt) ∧
      ∀ it e, p.mapTx.lookup it = some e → ∀ o ∈ e.tx.prevouts, o.hash ≠ hash
  | _ => true

theorem of_raises {p : TxMemPool Unit} {c : PoolCall Unit} (h : raises p c = true) :
    p.PrioritisesLeaves c ∧ p.DeltaFits c := by
  cases c with
  | prioritiseTransaction hash d nFeeDelta =>
    obtain ⟨hfits, hnone⟩ := of_decide_eq_true h
    refine ⟨fun _ b hspends => ?_, hfits⟩
    obtain ⟨-, tx, htx, o, ho, hhash⟩ := hspends
    obtain ⟨e, he, rfl⟩ := Option.map_eq_some_iff.mp htx
    exact hnone b e he o ho hhash
  | _ => exact ⟨trivial, trivial⟩

/-- Few small fees have sums that fit. -/
theorem sumsFit_of_small {p : TxMemPool Unit} (hcard : p.ids.card ≤ 100)
    (h : ∀ x ∈ p.ids, 0 ≤ p.feeAt x ∧ p.feeAt x ≤ 100) : p.SumsFit := by
  have hsum : ∀ S ⊆ p.ids, Fits64 (∑ a ∈ S, p.feeAt a) := by
    intro S hS
    have hlo : 0 ≤ ∑ a ∈ S, p.feeAt a := sum_nonneg fun a ha => (h a (hS ha)).1
    have hhi : ∑ a ∈ S, p.feeAt a ≤ S.card • 100 :=
      sum_le_card_nsmul S p.feeAt 100 fun a ha => (h a (hS ha)).2
    have hle := card_le_card hS
    rw [nsmul_eq_mul] at hhi
    constructor <;> omega
  exact fun it e _ => ⟨hsum _ fun a ha => (mem_ancestors.mp ha).1,
    hsum _ fun b hb => (mem_descendants.mp hb).1⟩

end PackageSample

namespace TxMemPool

open PackageSample PoolSample in
/-- Two deltas for a transaction that spends from another in the pool. -/
theorem modifiedFees_exact_child :
    Run.Always (step env) (empty 0) FeesExact raiseChild ∧
      ∃ p, Run.after (step env) (empty 0) raiseChild = .ok p ∧
        ∃ e, p.mapTx.lookup (child.getHash env) = some e ∧ e.nModFeesWithAncestors = 24 := by
  refine ⟨?_, by decide +kernel⟩
  have hraises : Run.EachAction (step env) (empty 0) (fun p c => raises p c = true) raiseChild :=
    .of_get (by decide +kernel)
  have hsmall : ∀ k ≤ raiseChild.length,
      ∀ p ∈ (Run.after (step env) (empty 0) (raiseChild.take k)).toOption,
        p.ids.card ≤ 100 ∧ ∀ x ∈ p.ids, 0 ≤ p.feeAt x ∧ p.feeAt x ≤ 100 := by
    decide +kernel
  refine ((modifiedFees_exact_iff (eachStep_contract (.of_get (by decide +kernel)))).mpr
    ⟨fun pre c post p _ hl hpre _ => (of_raises (hraises pre c post p hl hpre)).1,
      fun pre c post p _ hl hpre _ => (of_raises (hraises pre c post p hl hpre)).2, ?_⟩).1
  intro pre hpre p hp
  rw [List.prefix_iff_eq_take.mp hpre] at hp
  obtain ⟨hcard, hfees⟩ := hsmall pre.length hpre.length_le p (congrArg Except.toOption hp)
  exact sumsFit_of_small hcard hfees

open PackageSample PoolSample in
/-- **A delta for a transaction does not reach the sum of its child.** -/
theorem not_modifiedFees_exact :
    ¬ ∀ (D : Type) (E : PoolEnv D) (n : ℕ) (l : List (PoolCall D)),
      Run.EachStep (step E) (empty n) (fun p => p.Contract E) l →
        Run.Always (step E) (empty n) FeesExact l := by
  intro hall
  have hcontract : Run.EachStep (step env) (empty 0) (fun p => p.Contract env) raiseParent :=
    eachStep_contract (.of_get (by decide +kernel))
  have hleaves := (always_feesWrapped_iff hcontract).mp fun pre hpre p hp =>
    (feesExact_iff.mp (hall Unit env 0 raiseParent hcontract pre hpre p hp)).1
  obtain ⟨p, hp, hparent, hchild, q, hq⟩ : ∃ p,
      Run.after (step env) (empty 0) (raiseParent.take 2) = .ok p ∧
        parent.getHash env ∈ p.mapTx ∧ p.txAt (child.getHash env) = some child ∧
        ∃ q, p.step env (.prioritiseTransaction (parent.getHash env) () 5) = .ok q := by
    decide +kernel
  refine hleaves (raiseParent.take 2) _ [] p q rfl hp hq (by decide) (child.getHash env) ?_
  exact ⟨hparent, child, hchild, ⟨parent.getHash env, 0⟩, by decide +kernel, rfl⟩

end TxMemPool

end Passion
