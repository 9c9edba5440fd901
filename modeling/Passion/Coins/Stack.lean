import Passion.Coins.Flush

/-!
# A stack of caches is one abstract state

Whatever is done to the top of a stack of caches over a database, it answers as one abstract state.
A flush makes the view below answer as the top did. A null hash means that a cache has not asked
yet, so null hashes cannot be set; and the database always has the empty root.
-/

namespace Passion

open Layered Stateful CCoinsView CCoinsViewCache ChainState BaseUint

/-! ## Histories -/

/-- **The operations on the top of a stack.** -/
inductive CacheOp
  | getCoin (o : COutPoint)
  | haveCoin (o : COutPoint)
  | accessCoin (o : COutPoint)
  | getNullifier (nf : Uint256)
  | getSaplingAnchorAt (rt : Uint256)
  | getBestAnchor
  | getBestBlock
  | addCoin (o : COutPoint) (c : Coin) (possibleOverwrite : Bool)
  | spendCoin (o : COutPoint)
  | uncache (o : COutPoint)
  | setNullifiers (tx : CTransaction) (spent : Bool)
  | pushAnchor (tree : SaplingMerkleTree)
  | popAnchor (rt : Uint256)
  | setBestBlock (h : Uint256)
  | flush

namespace CacheOp

/-- The operation on the cache. -/
def run (E : Env) (v : CCoinsViewCache) : CacheOp → Result CCoinsViewCache
  | .getCoin o => .ok (v.fetchCoin o).2
  | .haveCoin o => .ok (v.haveCoin o).2
  | .accessCoin o => .ok (v.accessCoin o).2
  | .getNullifier nf => .ok (v.getNullifier nf).2
  | .getSaplingAnchorAt rt => .ok (v.getSaplingAnchorAt E rt).2
  | .getBestAnchor => .ok (v.getBestAnchor E).2
  | .getBestBlock => .ok v.getBestBlock.2
  | .addCoin o c possibleOverwrite => v.addCoin o c possibleOverwrite
  | .spendCoin o => .ok (v.spendCoin o).2
  | .uncache o => .ok (v.uncache o)
  | .setNullifiers tx spent => ((Passion.setNullifiers tx spent).run v).map Prod.snd
  | .pushAnchor tree => .ok (v.pushAnchor E tree)
  | .popAnchor rt => v.popAnchor E rt
  | .setBestBlock h => .ok (v.setBestBlock h)
  | .flush => v.flush E

/-- The operation on the abstract state. -/
def apply (E : Env) (a : AbstractState) : CacheOp → AbstractState
  | .addCoin o c _ =>
    if CScript.isUnspendable c.out.scriptPubKey then a
    else { a with coins := Function.update a.coins o (some c) }
  | .spendCoin o => { a with coins := Function.update a.coins o none }
  | .setNullifiers tx spent =>
    { a with nullifiers := if spent then a.nullifiers ∪ {nf | nf ∈ tx.nullifiers}
        else a.nullifiers \ {nf | nf ∈ tx.nullifiers} }
  | .pushAnchor tree =>
    { a with anchors := if a.bestAnchor = tree.root E then a.anchors
        else insert (tree.root E) a.anchors
             bestAnchor := tree.root E }
  | .popAnchor rt =>
    { a with anchors := if a.bestAnchor = rt then a.anchors else a.anchors \ {a.bestAnchor}
             bestAnchor := rt }
  | .setBestBlock h => { a with bestBlock := h }
  | _ => a

/-- **When an operation may be used**: a coin that is added is unspent, and overwrites nothing
unless it says so; hashes that are set are not null; the best anchor is only popped if it is
there, and the empty root never; a cache that is flushed knows its best block and anchor. -/
def Allowed (E : Env) (v : CCoinsViewCache) (a : AbstractState) : CacheOp → Prop
  | .addCoin o c possibleOverwrite =>
    c.isSpent = false ∧ (possibleOverwrite = false → a.coins o = none)
  | .pushAnchor tree => (tree.root E).isNull = false
  | .popAnchor rt => rt.isNull = false ∧ (a.bestAnchor ≠ rt →
      a.bestAnchor ∈ a.anchors ∧ a.bestAnchor ≠ SaplingMerkleTree.emptyRoot E)
  | .setBestBlock h => h.isNull = false
  | .flush => v.cache.hashBlock.isNull = false ∧ v.cache.hashSaplingAnchor.isNull = false
  | _ => True

end CacheOp

/-- **The histories of a stack**, with the abstract state they lead to: a cache over a
database, a new cache on top, an operation on the top, and a flush after which the cache below
is used. -/
inductive CacheRun (E : Env) : CCoinsViewCache → AbstractState → Prop
  | start {d : CCoinsViewDB} (h : (CCoinsView.db d).Sound E) :
      CacheRun E (.onBase (.db d)) (d.state E).abstract
  | layer {v : CCoinsViewCache} {a : AbstractState} (h : CacheRun E v a) :
      CacheRun E (.onBase v.toView) a
  | step {v v' : CCoinsViewCache} {a : AbstractState} (op : CacheOp) (h : CacheRun E v a)
      (hop : op.Allowed E v a) (hv : op.run E v = .ok v') : CacheRun E v' (op.apply E a)
  | close {v v' : CCoinsViewCache} {c : CacheData} {base : CCoinsView} {a : AbstractState}
      (h : CacheRun E v a) (hop : CacheOp.flush.Allowed E v a) (hv : v.flush E = .ok v')
      (hbase : v'.base = .cache c base) : CacheRun E ⟨c, base⟩ a

/-- A view answers as an abstract state. -/
structure CCoinsView.AnswersAs (E : Env) (w : CCoinsView) (a : AbstractState) : Prop where
  getCoin : ∀ o, Answers (w.getCoin o).1 (a.coins o)
  getNullifier : ∀ nf, (w.getNullifier nf).1 = true ↔ nf ∈ a.nullifiers
  getSaplingAnchorAt : ∀ rt, (w.getSaplingAnchorAt E rt).1.isSome = true ↔ rt ∈ a.anchors
  getBestAnchor : (w.getBestAnchor E).1 = a.bestAnchor
  getBestBlock : w.getBestBlock.1 = a.bestBlock

/-- A cache answers as an abstract state. -/
structure CCoinsViewCache.AnswersAs (E : Env) (v : CCoinsViewCache) (a : AbstractState) : Prop
    extends CCoinsView.AnswersAs E v.toView a where
  haveCoin : ∀ o, (v.haveCoin o).1 = (a.coins o).isSome
  accessCoin : ∀ o, (v.accessCoin o).1 = (a.coins o).getD .empty

variable {E : Env} {v v' : CCoinsViewCache} {a : AbstractState}

/-- A sound view answers as its state. -/
theorem CCoinsView.Sound.answersAs {w : CCoinsView} (h : w.Sound E) :
    w.AnswersAs E (w.state E).abstract where
  getCoin := fun o => (getCoin_spec o h).1
  getNullifier := fun nf => by
    rw [(getNullifier_spec nf h).1]
    rfl
  getSaplingAnchorAt := fun rt => by
    rw [(getSaplingAnchorAt_spec rt h).1]
    rfl
  getBestAnchor := (getBestAnchor_spec h).1
  getBestBlock := (getBestBlock_spec h).1

theorem CCoinsViewCache.Sound.answersAs (h : v.Sound E) : v.AnswersAs E (v.state E).abstract where
  toAnswersAs := CCoinsView.Sound.answersAs h
  haveCoin := fun o => (haveCoin_spec h o).1
  accessCoin := fun o => (accessCoin_spec h o).1

/-! ## One step -/

/-! The operations of the state, as operations of the abstract state. -/

namespace ChainState

variable {s : ChainState}

theorem abstract_markNullifiers (tx : CTransaction) (spent : Bool) :
    (s.markNullifiers tx.nullifiers spent).abstract =
      (CacheOp.setNullifiers tx spent).apply E s.abstract := by
  ext1
  case nullifiers =>
    ext nf
    cases spent <;> by_cases hnf : nf ∈ tx.nullifiers <;>
      simp [abstract, markNullifiers, CacheOp.apply, hnf]
  all_goals rfl

theorem abstract_setAnchor (rt best : Uint256) (t : Option SaplingMerkleTree) :
    (s.setAnchor rt t best).abstract = { s.abstract with
      anchors := if t.isSome then insert rt s.abstract.anchors else s.abstract.anchors \ {rt}
      bestAnchor := best } := by
  ext1
  case anchors =>
    ext rt'
    by_cases hrt : rt' = rt <;> cases t <;> simp [abstract, setAnchor, hrt]
  all_goals rfl

/-- The best anchor moves to `best`, unless it is there. -/
theorem abstract_moveAnchor (rt best : Uint256) (t : Option SaplingMerkleTree) :
    (if s.bestAnchor = best then s else s.setAnchor rt t best).abstract = { s.abstract with
      anchors := if s.bestAnchor = best then s.abstract.anchors
        else if t.isSome then insert rt s.abstract.anchors else s.abstract.anchors \ {rt}
      bestAnchor := best } := by
  split
  · next h =>
    rw [← h]
    rfl
  · exact abstract_setAnchor ..

end ChainState

/-- **The stack shows the abstract state.** -/
structure StackShows (E : Env) (v : CCoinsViewCache) (a : AbstractState) : Prop where
  sound : v.Sound E
  state : (v.state E).abstract = a
  emptyRoot : SaplingMerkleTree.emptyRoot E ∈ a.anchors

namespace StackShows

theorem read (h : StackShows E v a) (hr : v'.toView.Shows E (v.state E)) : StackShows E v' a :=
  ⟨hr.sound, (congrArg abstract hr.state).trans h.state, h.emptyRoot⟩

/-- What an operation does to the state of the cache it does to the abstract state. -/
theorem of_state {s : ChainState} {b : AbstractState} (hs : v'.Sound E) (hstate : v'.state E = s)
    (habs : s.abstract = b) (hb : SaplingMerkleTree.emptyRoot E ∈ b.anchors) : StackShows E v' b :=
  ⟨hs, (congrArg abstract hstate).trans habs, hb⟩

theorem flush (h : StackShows E v a) (hop : CacheOp.flush.Allowed E v a) :
    ∃ v', v.flush E = .ok v' ∧ StackShows E v' a ∧ v'.base.Sound E ∧
      (v'.base.state E).abstract = a := by
  obtain ⟨v', hv', hs, hbase, hstate⟩ := v.exists_flush h.sound hop.1 hop.2
    (by have := h.emptyRoot; rwa [← h.state] at this)
  exact ⟨v', hv', ⟨hs, hstate.trans h.state, h.emptyRoot⟩, hs.1, hbase.trans h.state⟩

/-- **One operation**: it does not throw, and the stack shows the state it leads to. -/
theorem step (h : StackShows E v a) (op : CacheOp) (hop : op.Allowed E v a) :
    ∃ v', op.run E v = .ok v' ∧ StackShows E v' (op.apply E a) := by
  obtain ⟨hs, rfl, hempty⟩ := h
  have h : StackShows E v (v.state E).abstract := ⟨hs, rfl, hempty⟩
  cases op with
  | getCoin o => exact ⟨_, rfl, h.read (v.fetchCoin_spec hs o).1.shows⟩
  | haveCoin o => exact ⟨_, rfl, h.read (v.haveCoin_spec hs o).2.shows⟩
  | accessCoin o => exact ⟨_, rfl, h.read (v.accessCoin_spec hs o).2.shows⟩
  | getNullifier nf =>
    exact ⟨_, rfl, h.read (getNullifier_spec nf (v := v.toView) hs).2⟩
  | getSaplingAnchorAt rt =>
    exact ⟨_, rfl, h.read (getSaplingAnchorAt_spec rt (v := v.toView) hs).2⟩
  | getBestAnchor => exact ⟨_, rfl, h.read (getBestAnchor_spec (v := v.toView) hs).2⟩
  | getBestBlock => exact ⟨_, rfl, h.read (getBestBlock_spec (v := v.toView) hs).2⟩
  | addCoin o c overwrite =>
    obtain ⟨v', hv', hs', hstate⟩ := v.addCoin_spec hs hop.1 hop.2
    refine ⟨v', hv', of_state hs' hstate ?_ ?_⟩
    · dsimp only [CacheOp.apply]
      split <;> rfl
    · dsimp only [CacheOp.apply]
      split <;> exact hempty
  | spendCoin o =>
    obtain ⟨hs', hstate⟩ := v.spendCoin_spec hs o
    exact ⟨_, rfl, of_state hs' hstate rfl hempty⟩
  | uncache o =>
    obtain ⟨hs', hstate⟩ := v.uncache_spec hs o
    exact ⟨_, rfl, of_state hs' hstate rfl hempty⟩
  | setNullifiers tx spent =>
    obtain ⟨v', hrun, hs', hstate⟩ := v.setNullifiers_spec hs tx spent
    refine ⟨v', ?_, of_state hs' hstate (abstract_markNullifiers tx spent) hempty⟩
    change ((setNullifiers tx spent).run v).map Prod.snd = _
    rw [hrun]
    rfl
  | pushAnchor tree =>
    obtain ⟨hs', hstate⟩ := v.pushAnchor_spec hs (show (tree.root E).isNull = false from hop)
    refine ⟨_, rfl, of_state hs' hstate (abstract_moveAnchor ..) ?_⟩
    unfold CacheOp.apply
    dsimp only
    split
    · exact hempty
    · exact Set.mem_insert_of_mem _ hempty
  | popAnchor rt =>
    obtain ⟨v', hv', hs', hstate⟩ := v.popAnchor_spec hs hop.1 fun hne => (hop.2 hne).1
    refine ⟨v', hv', of_state hs' hstate (abstract_moveAnchor ..) ?_⟩
    unfold CacheOp.apply
    dsimp only
    split
    · exact hempty
    · next hne => exact ⟨hempty, fun heq => (hop.2 hne).2 heq.symm⟩
  | setBestBlock hash =>
    obtain ⟨hs', hstate⟩ := v.setBestBlock_spec hs hash
    have hnull : hash.isNull = false := hop
    rw [hnull] at hstate
    exact ⟨_, rfl, of_state hs' hstate rfl hempty⟩
  | flush =>
    obtain ⟨v', hv', hshows, -⟩ := h.flush hop
    exact ⟨v', hv', hshows⟩

end StackShows

/-- **Every history**: the stack shows the abstract state. -/
theorem CacheRun.stackShows (h : CacheRun E v a) : StackShows E v a := by
  induction h with
  | start hd =>
    refine ⟨sound_onBase hd, ?_, ?_⟩
    · rfl
    · simp [abstract, CCoinsViewDB.state]
  | layer _ ih =>
    refine ⟨sound_onBase ih.sound, ?_, ih.emptyRoot⟩
    exact ih.state
  | step op _ hop hv ih =>
    obtain ⟨v'', hv'', hshows⟩ := ih.step op hop
    obtain rfl := Except.ok.inj (hv.symm.trans hv'')
    exact hshows
  | close _ hop hv hbase ih =>
    obtain ⟨v'', hv'', -, hs, hstate⟩ := ih.flush hop
    obtain rfl := Except.ok.inj (hv.symm.trans hv'')
    rw [hbase] at hs hstate
    exact ⟨hs, hstate, ih.emptyRoot⟩

/-- **A stack of caches is one abstract state.** After any history the top answers as the
abstract state; every operation that may be used then succeeds and the top answers as the
state it leads to (for `Uncache` and a flush: the same state); and after a flush the view
below answers as the top did. -/
theorem cacheStack_refines (h : CacheRun E v a) :
    v.AnswersAs E a ∧
      (∀ op : CacheOp, op.Allowed E v a →
        ∃ v', op.run E v = .ok v' ∧ v'.AnswersAs E (op.apply E a)) ∧
      (CacheOp.flush.Allowed E v a →
        ∃ v', v.flush E = .ok v' ∧ v'.base.AnswersAs E a) := by
  have hshows := h.stackShows
  have hans : ∀ {w : CCoinsViewCache} {b : AbstractState}, StackShows E w b → w.AnswersAs E b := by
    intro w b hw
    rw [← hw.state]
    exact hw.sound.answersAs
  refine ⟨hans hshows, fun op hop => ?_, fun hop => ?_⟩
  · obtain ⟨v', hv', hshows'⟩ := hshows.step op hop
    exact ⟨v', hv', hans hshows'⟩
  · obtain ⟨v', hv', -, hs, hstate⟩ := hshows.flush hop
    refine ⟨v', hv', ?_⟩
    rw [← hstate]
    exact hs.answersAs

/-! ## Spends, null hashes and assertions -/

/-- A database with a best block, a best anchor and one coin. -/
def sampleDB (bestSaplingAnchor : Option Uint256) : CCoinsViewDB :=
  ⟨(∅ : AList _).insert ⟨ofNat 7, 0⟩ ⟨false, false, ⟨5, [0x51]⟩, 1⟩, ∅, [], ofNat 1,
    bestSaplingAnchor⟩

theorem run_sampleDB (bestSaplingAnchor : Option Uint256) :
    CacheRun sampleEnv (.onBase (.db (sampleDB bestSaplingAnchor)))
      ((sampleDB bestSaplingAnchor).state sampleEnv).abstract := by
  refine .start fun o c hc => ?_
  by_cases ho : o = ⟨ofNat 7, 0⟩
  · cases ho ▸ hc
    rfl
  · cases (AList.lookup_insert_ne ho).symm.trans hc

/-- Two caches: the lower one reads the coin, the upper one spends it and is flushed. -/
theorem cacheStack_refines_spent :
    ∃ v v' a, CacheRun sampleEnv v a ∧ v.flush sampleEnv = .ok v' ∧
      v'.base.AnswersAs sampleEnv a ∧ a.coins ⟨ofNat 7, 0⟩ = none := by
  have hrun := ((((run_sampleDB none).step (.getCoin ⟨ofNat 7, 0⟩) trivial rfl).layer.step
    (.spendCoin ⟨ofNat 7, 0⟩) trivial rfl).step .getBestBlock trivial rfl).step .getBestAnchor
    trivial rfl
  obtain ⟨v', hv', hans⟩ := (cacheStack_refines hrun).2.2 (by unfold CacheOp.Allowed; decide +kernel)
  exact ⟨_, v', _, hrun, hv', hans, by simp [CacheOp.apply]⟩

/-- **What a stack does not do.** `AddCoin` does not take a spent coin, and `PopAnchor` needs the
best anchor to be there; `GetCoin` returns a coin that was spent; after a null best block is set, a
cache answers with the best block of the view below; and a database has the empty root even after
it was popped and the cache was flushed. -/
theorem cacheStack_not_refines :
    (¬ ∀ (E : Env) (v : CCoinsViewCache) (a : AbstractState) (o : COutPoint) (c : Coin),
      CacheRun E v a → a.coins o = none → ∃ v', v.addCoin o c false = .ok v') ∧
    (¬ ∀ (E : Env) (v : CCoinsViewCache) (a : AbstractState) (rt : Uint256), CacheRun E v a →
      ∃ v', v.popAnchor E rt = .ok v') ∧
    (¬ ∀ (E : Env) (v : CCoinsViewCache) (a : AbstractState) (o : COutPoint), CacheRun E v a →
      (v.toView.getCoin o).1 = a.coins o) ∧
    (¬ ∀ (E : Env) (v : CCoinsViewCache) (a : AbstractState) (hash : Uint256), CacheRun E v a →
      (v.setBestBlock hash).AnswersAs E { a with bestBlock := hash }) ∧
    ¬ ∀ (E : Env) (v v₁ v₂ : CCoinsViewCache) (a : AbstractState) (rt : Uint256), CacheRun E v a →
      v.popAnchor E rt = .ok v₁ → v₁.cache.hashBlock.isNull = false →
      v₁.cache.hashSaplingAnchor.isNull = false → v₁.flush E = .ok v₂ →
        v₂.base.AnswersAs E ((CacheOp.popAnchor rt).apply E a) := by
  have hstart := run_sampleDB none
  refine ⟨fun hall => ?_, fun hall => ?_, fun hall => ?_, fun hall => ?_, fun hall => ?_⟩
  · obtain ⟨v', hv'⟩ := hall _ _ _ ⟨ofNat 8, 0⟩ .empty hstart rfl
    cases hv'
  · exact absurd (hall _ _ _ (ofNat 5) (run_sampleDB (some (ofNat 9)))) (by decide +kernel)
  · have hsame := hall _ _ _ ⟨ofNat 7, 0⟩ (hstart.step (.spendCoin ⟨ofNat 7, 0⟩) trivial rfl)
    simp only [CacheOp.apply, Function.update_self] at hsame
    exact absurd hsame (by decide +kernel)
  · exact absurd (hall _ _ _ zero hstart).getBestBlock (by decide +kernel)
  · obtain ⟨v₁, hpop, hblock, hanchor, v₂, hflush, hroot⟩ : ∃ v,
        popAnchor (onBase (.db (sampleDB none))).getBestBlock.2 sampleEnv (ofNat 5) = .ok v ∧
        v.cache.hashBlock.isNull = false ∧ v.cache.hashSaplingAnchor.isNull = false ∧
        ∃ v₂, v.flush sampleEnv = .ok v₂ ∧ (v₂.base.getSaplingAnchorAt sampleEnv
          (SaplingMerkleTree.emptyRoot sampleEnv)).1.isSome := by
      decide +kernel
    have hans := hall _ _ _ _ _ (ofNat 5) (hstart.step .getBestBlock trivial rfl) hpop hblock
      hanchor hflush
    have hmem := (hans.getSaplingAnchorAt _).mp hroot
    have hne : SaplingMerkleTree.emptyRoot sampleEnv ≠ ofNat 5 := by decide +kernel
    simp [CacheOp.apply, abstract, CCoinsViewDB.state, sampleDB, hne] at hmem

end Passion
