import Passion.Chain.GenesisIndex
import Passion.Validation.ChainIndexOps

/-!
# Runs of the block index

A node starts with the genesis block and then accepts blocks, activates the best chain, invalidates
and reconsiders blocks, in any order and with any verdict of `ConnectTip`. The index is consistent
all the time if each operation is given what it can handle: `ReconsiderBlock` a block with no failed
ancestor, `InvalidateBlock` not the genesis block, `ActivateBestChain` an active chain that is not
given up, and `AcceptBlock` a block that adds work and can be counted.
-/

namespace Passion

open CBlockIndex ChainIndex Persistent List

/-! ## A block is accepted -/

/-- **What `AcceptBlock` may be given** in a state of the node. -/
structure Acceptable (E : Env) (params : CChainParams) (connects : Uint256 → Bool) (turns : ℕ)
    (N : NodeState) (block : CBlock) : Prop where
  flag : block.FlagEarned E params
  /-- The hash of a block stands for its parent. -/
  parent : ∀ {p g}, N.mapBlockIndex.lookup (block.getHash E.toHashing) = some p →
    p.pprev = some g → g = block.hashPrevBlock
  /-- The block adds work to that of its parent. -/
  work : ∀ {q}, N.mapBlockIndex.lookup block.hashPrevBlock = some q →
    q.nChainWork.toNat < (q.nChainWork.add (getBlockProof block.nBits)).toNat
  /-- The transactions can be counted, for an entry that is there and for a new one. -/
  room : N.index.RoomFor (block.getHash E.toHashing) block
  roomAbove : ∀ {q}, N.mapBlockIndex.lookup block.hashPrevBlock = some q →
    ((q.ancestors N.mapBlockIndex).map (·.nTx)).sum + block.vtx.length < 2 ^ 32
  /-- A parent that is marked as failed is reconsidered, and the best chain activated, if it
  matches a checkpoint. -/
  reconsider : ∀ {q}, N.mapBlockIndex.lookup block.hashPrevBlock = some q →
    q.nStatus.failed = true →
    N.checkpointsCheckBlock params q.nHeight block.hashPrevBlock true = true →
    N.index.AncestorsUnmarked q ∧ (N.index.reconsiderBlock q).KeepsChain connects turns

variable {E : Env} {params : CChainParams} {literal : UInt64} {connects : Uint256 → Bool}
variable {turns : ℕ} {genesis : Uint256} {N N₁ N₂ : NodeState} {block : CBlock}
variable {p q : CBlockIndex} {I : ChainIndex} {hash : Uint256}

/-- The index of the node is consistent. -/
abbrev Sound (genesis : Uint256) (N : NodeState) : Prop := N.index.Consistent genesis

/-- **The parent was found**, in a state that differs from the first one in marks and in the
active chain only. -/
structure ParentFound (genesis : Uint256) (N : NodeState) (block : CBlock) (N₁ : NodeState)
    (q : CBlockIndex) : Prop where
  consistent : N₁.index.Consistent genesis
  change : ∃ f, Change N.index N₁.index f
  entry : N₁.mapBlockIndex.lookup block.hashPrevBlock = some q
  usable : q.nStatus.failed = false ∨ q.nChainTx ≠ 0

theorem leaves_activateBestChain {Q : Unit → NodeState → Prop} {R : NodeState → Prop}
    (hsome : ∀ J, N.index.activateBestChain connects turns = some J → Q () (N.setIndex J))
    (hnone : R N) :
    Leaves (ignoreResult ((chainOps connects turns).activateBestChain none)) N Q R := by
  cases hrun : N.index.activateBestChain connects turns with
  | none => simpa [Leaves, exec, ignoreResult, chainOps, hrun, Failure.isReturn] using hnone
  | some J => simpa [Leaves, exec, ignoreResult, chainOps, hrun] using hsome J hrun

/-- The branch of `GetPrevIndex` for a parent that is marked as failed. -/
theorem leaves_reconsiderPrev (h : N.index.Consistent genesis)
    (hq : N.mapBlockIndex.lookup block.hashPrevBlock = some q)
    (hmatch : N.checkpointsCheckBlock params q.nHeight block.hashPrevBlock true = true →
      N.index.AncestorsUnmarked q ∧ (N.index.reconsiderBlock q).KeepsChain connects turns) :
    Leaves (reconsiderPrev (chainOps connects turns) params block q) N
      (fun pprev N₁ => ∃ q, pprev = some q ∧ ParentFound genesis N block N₁ q)
      (Sound genesis) := by
  unfold reconsiderPrev
  rw [leaves_state_bind]
  split
  case isFalse => exact leaves_ofResult (fun _ hok => by cases hok) h
  rename_i hcheckpoint
  obtain ⟨hclean, hkeep⟩ := hmatch hcheckpoint
  have hm := h.tree
  have hself : N.index.mapBlockIndex.lookup q.hashBlock = some q := by
    have hkey : q.hashBlock = block.hashPrevBlock := hm.key hq
    rw [hkey]
    exact hq
  have hcleared := h.reconsiderBlock hself hclean
  have hchange := change_reconsiderBlock hm hself hclean
  have hlook := hchange.lookup hq
  have hgood : (N.index.clearBelow q q).nStatus.failed = false := by
    rw [clearBelow, if_pos (hm.self_mem_ancestors hself)]
    rfl
  suffices hactivate : Leaves (ignoreResult ((chainOps connects turns).activateBestChain none))
      (N.setIndex (N.index.reconsiderBlock q))
      (fun _ N₂ => ∃ q, N₂.mapBlockIndex.lookup block.hashPrevBlock = some q ∧
        ParentFound genesis N block N₂ q) (Sound genesis) from hactivate.bind fun _ _ hN₂ => hN₂
  refine leaves_activateBestChain (fun J hrun => ?_) hcleared
  obtain ⟨hJ, hsteps⟩ := hcleared.activateBestChain hkeep hrun
  obtain ⟨f, hf, hcomplete⟩ := hsteps.exists_change hcleared.toSteady
  have hfound := hf.lookup hlook
  refine ⟨f (N.index.clearBelow q q), hfound, hJ, ⟨_, hchange.trans hf⟩, hfound, ?_⟩
  cases hmarked : (f (N.index.clearBelow q q)).nStatus.failed with
  | false => exact .inl rfl
  | true =>
    refine .inr ((hJ.accounts.linked_iff hfound).mpr ?_)
    exact (hf.complete_iff hcleared.tree hlook).mpr (hcomplete hlook hgood hmarked)

/-- **`GetPrevIndex`** on a consistent index. -/
theorem leaves_getPrevIndex (h : N.index.Consistent params.consensus.hashGenesisBlock)
    (hblock : Acceptable E params connects turns N block) :
    Leaves (getPrevIndex (chainOps connects turns) E params block) N
      (fun pprev N₁ =>
        (block.getHash E = params.consensus.hashGenesisBlock ∧ pprev = none ∧ N₁ = N) ∨
        ∃ q, pprev = some q ∧ ParentFound params.consensus.hashGenesisBlock N block N₁ q)
      (Sound params.consensus.hashGenesisBlock) := by
  unfold getPrevIndex
  split
  · rename_i hgenesis
    exact leaves_pure.mpr (.inl ⟨hgenesis, rfl, rfl⟩)
  · rw [leaves_state_bind]
    split
    · exact leaves_ofResult (fun _ hok => by cases hok) h
    · rename_i q hq
      split
      · rename_i hfailed
        exact (leaves_reconsiderPrev h hq (hblock.reconsider hq hfailed)).mono
          fun _ _ hfound => .inr hfound
      · rename_i hgood
        refine leaves_pure.mpr (.inr ⟨q, rfl, h, ⟨id, Change.of_same_map rfl rfl⟩, hq, .inl ?_⟩)
        exact Bool.not_eq_true _ ▸ hgood

theorem Change.roomFor {J : ChainIndex} {f : CBlockIndex → CBlockIndex}
    (hc : Change I J f) (hm : I.IsTree) (hroom : I.RoomFor hash block) : J.RoomFor hash block := by
  intro k p' hp'
  obtain ⟨p, hp, rfl⟩ := hc.exists_lookup hp'
  rw [hc.ancestors hm hp, map_map]
  refine lt_of_eq_of_lt (congrArg sum (map_congr_left fun a _ => ?_)) (hroom k p hp)
  rw [Function.comp_apply, (hc.remarked a).same]

/-- **The entry of the block was found or made**: it is not marked, and its data may arrive. -/
structure EntryFound (genesis hash : Uint256) (block : CBlock) (N : NodeState)
    (pindex : CBlockIndex) : Prop where
  consistent : N.index.Consistent genesis
  entry : N.mapBlockIndex.lookup hash = some pindex
  good : pindex.nStatus.failed = false
  parent : pindex.nStatus.haveData = false → N.index.ParentUsable pindex
  room : N.index.RoomFor hash block

/-- The one parent there is may be usable. -/
theorem parentUsable_of_lookup (h : I.Consistent genesis)
    (hq : I.Has hash q) (husable : q.nStatus.failed = false ∨ q.nChainTx ≠ 0)
    (hprev : ∀ {g}, p.pprev = some g → g = hash) : I.ParentUsable p := by
  intro g q' hg hq'
  rw [hprev hg] at hq'
  cases hq.symm.trans hq'
  refine husable.imp_left fun hgood => ?_
  rw [isValid, hgood, Bool.not_false, Bool.true_and]
  exact decide_eq_true (h.entry hq).known

/-- A block that has an entry. -/
theorem ParentFound.entryFound (hfound : ParentFound genesis N block N₁ q)
    (hN : N.index.Consistent genesis) (hblock : Acceptable E params connects turns N block)
    (hp : N₁.mapBlockIndex.lookup (block.getHash E) = some p) (hgood : p.nStatus.failed = false) :
    EntryFound genesis (block.getHash E) block N₁ p := by
  obtain ⟨f, hf⟩ := hfound.change
  obtain ⟨p₀, hp₀, rfl⟩ := hf.exists_lookup hp
  refine ⟨hfound.consistent, hp, hgood, fun _ => ?_, hf.roomFor hN.tree hblock.room⟩
  refine parentUsable_of_lookup hfound.consistent hfound.entry hfound.usable fun {g} hg => ?_
  rw [hf.pprev] at hg
  exact hblock.parent hp₀ hg

/-- The transactions can still be counted when a new entry is there. -/
theorem roomFor_insert {t : BlockTree} {g : Uint256}
    (hm : I.IsTree) (hm' : t.mapBlockIndex.IsTree)
    (hext : I.mapBlockIndex.Extends t.mapBlockIndex hash p)
    (hhash : p.hashBlock = hash) (hprev : p.pprev = some g)
    (hq : I.Has g q) (hroom : I.RoomFor hash block)
    (habove : ((q.ancestors I).map (·.nTx)).sum + block.vtx.length < 2 ^ 32) :
    { I with toBlockTree := t }.RoomFor hash block := by
  intro k a ha
  rcases hext.cases ha with ⟨-, rfl⟩ | ha
  · -- The block itself is not among the ancestors of its parent.
    have hother : (q.ancestors I).map (fun b =>
        if b.hashBlock = hash then block.vtx.length else b.nTx) =
        (q.ancestors I).map (·.nTx) := by
      refine map_congr_left fun b hb => if_neg fun heq => ?_
      have hb' := hm.lookup_ancestor hq hb
      rw [heq] at hb'
      cases hb'.symm.trans hext.new
    rw [hm'.ancestors_child hext.self hprev (hext.keep hq), hext.ancestors hm hm' hq, map_cons,
      sum_cons, if_pos hhash, hother]
    omega
  · rw [hext.ancestors hm hm' ha]
    exact hroom k a ha

/-- **`AddToBlockIndex`** for a block whose parent was found. -/
theorem leaves_addBlockIndex (hfound : ParentFound genesis N block N₁ q)
    (hN : N.index.Consistent genesis) (hblock : Acceptable E params connects turns N block)
    (hnew : N₁.mapBlockIndex.lookup (block.getHash E) = none) :
    Leaves (addBlockIndex E params literal block) N₁
      (fun p N₂ => EntryFound genesis (block.getHash E) block N₂ p)
      (Sound genesis) := by
  have hC := hfound.consistent
  have hm := hC.tree
  obtain ⟨f, hf⟩ := hfound.change
  obtain ⟨q₀, hq₀, hq⟩ := hf.exists_lookup hfound.entry
  unfold addBlockIndex
  rw [leaves_state_bind]
  refine leaves_ofResult_bind ?_ hC
  rintro ⟨t, p⟩ hadd
  have hne : block.hashPrevBlock ≠ block.getHash E := by
    intro heq
    rw [← heq] at hnew
    cases hfound.entry.symm.trans hnew
  obtain ⟨hentry, hext⟩ := addToBlockIndex_new hnew hne hadd
  have hlookup : N₁.mapBlockIndex.lookup block.hashPrevBlock = some q := hfound.entry
  have hwork : q.nChainWork.toNat < p.nChainWork.toNat := by
    rw [hentry.nChainWork, hlookup, Option.map_some, ← hq, (hf.remarked q₀).nChainWork]
    exact hblock.work hq₀
  have hC' : { N₁.index with toBlockTree := t }.Consistent genesis :=
    hC.addToBlockIndex hentry hext hfound.entry hwork
  have hprev : p.pprev = some block.hashPrevBlock := by
    rw [hentry.pprev, hlookup]
    rfl
  refine ⟨hC', hext.self, ?_, fun _ => ?_, ?_⟩
  · rw [hentry.nStatus]
    rfl
  · refine parentUsable_of_lookup hC' (hext.keep hlookup) hfound.usable fun {g} hg => ?_
    exact (Option.some.inj (hprev.symm.trans hg)).symm
  · refine roomFor_insert hm hC'.tree hext hentry.hashBlock hprev hfound.entry
      (hf.roomFor hN.tree hblock.room) ?_
    rw [← hq, hf.ancestors hN.tree hq₀, map_map]
    have hsame : (fun a => a.nTx) ∘ f = fun a => a.nTx :=
      funext fun a => by rw [Function.comp_apply, (hf.remarked a).same]
    rw [hsame]
    exact hblock.roomAbove hq₀

variable {pprev : Option CBlockIndex}

/-- **`AcceptBlockHeader`**, from the state in which the parent was found. -/
theorem leaves_acceptBlockHeader (hN : N.index.Consistent params.consensus.hashGenesisBlock)
    (hblock : Acceptable E params connects turns N block)
    (hprev : (block.getHash E = params.consensus.hashGenesisBlock ∧ pprev = none ∧
        N₁ = N) ∨
      ∃ q, pprev = some q ∧ ParentFound params.consensus.hashGenesisBlock N block N₁ q) :
    Leaves (acceptBlockHeader (chainOps connects turns) E params literal block pprev) N₁
      (fun p N₂ =>
        EntryFound params.consensus.hashGenesisBlock (block.getHash E) block N₂ p)
      (Sound params.consensus.hashGenesisBlock) := by
  unfold acceptBlockHeader acceptHeaderChecks
  rcases hprev with ⟨hgenesis, rfl, rfl⟩ | ⟨q, rfl, hfound⟩
  · -- The genesis block has an entry, with data.
    obtain ⟨r, hr, -, hdata⟩ := hN.lookup_genesis
    rw [← hgenesis] at hr
    have hr' : N₁.mapBlockIndex.lookup (block.getHash E) = some r := hr
    rw [bind_assoc, leaves_state_bind, hr']
    dsimp only
    split
    · exact leaves_ofResult_bind (fun _ hok => by cases hok) hN
    · rename_i hgood
      refine leaves_pure.mpr ⟨hN, hr, Bool.not_eq_true _ ▸ hgood, fun hno => ?_, hblock.room⟩
      rw [hdata] at hno
      cases hno
  · rw [bind_assoc, leaves_state_bind]
    cases hp : N₁.mapBlockIndex.lookup (block.getHash E) with
    | some p =>
      dsimp only
      split
      · exact leaves_ofResult_bind (fun _ hok => by cases hok) hfound.consistent
      · rename_i hgood
        exact leaves_pure.mpr (hfound.entryFound hN hblock hp (Bool.not_eq_true _ ▸ hgood))
    | none =>
      rw [if_neg (by simp), pure_bind, bind_assoc, leaves_state_bind, bind_assoc]
      refine leaves_ofResult_bind (fun _ _ => ?_) hfound.consistent
      exact leaves_addBlockIndex hfound hN hblock hp

/-- The checks of the whole block: a block that fails is marked. -/
theorem leaves_checkWholeBlock (hfound : EntryFound genesis (block.getHash E) block N p)
    (hdata : p.nStatus.haveData = false) :
    Leaves (checkWholeBlock E params block p) N
      (fun _ N' => N' = N ∧ ∃ b, checkBlock E params N block true true true = .ok b)
      (Sound genesis) := by
  have hC := hfound.consistent
  unfold checkWholeBlock
  rw [leaves_state_bind]
  split
  · rename_i hcheck
    obtain ⟨b, hb, -⟩ := Except.bind_eq_ok.mp hcheck
    exact leaves_pure.mpr ⟨rfl, b, hb⟩
  · rename_i e _
    have hmark : Leaves (markFailed p e) N (fun _ => Sound genesis) (Sound genesis) := by
      unfold markFailed
      split
      · split
        · exact leaves_pure.mpr hC
        · have hkey : p.hashBlock = block.getHash E := hC.tree.key hfound.entry
          refine hC.failedBlock hfound.entry hdata ?_ rfl rfl rfl rfl
          intro k
          have hinsert := hC.tree.lookup_insert hfound.entry markFailedValid k
          rw [← hkey] at hinsert ⊢
          exact hinsert
      · exact leaves_pure.mpr hC
    exact hmark.bind fun _ _ hN' => leaves_ofResult (fun _ hok => by cases hok) hN'

/-- **The second part of `AcceptBlock`**, from the state with the entry. -/
theorem leaves_acceptData (hflag : block.FlagEarned E params)
    (hfound : EntryFound genesis (block.getHash E) block N p) :
    Leaves (acceptData E params block pprev p) N (fun _ => Sound genesis)
      (Sound genesis) := by
  have hC := hfound.consistent
  unfold acceptData
  split
  · exact leaves_pure.mpr hC
  · rename_i hno
    have hdata : p.nStatus.haveData = false := Bool.not_eq_true _ ▸ hno
    refine (leaves_checkWholeBlock hfound hdata).bind ?_
    rintro _ _ ⟨rfl, b, hb⟩
    rw [leaves_state_bind]
    refine leaves_ofResult_bind (fun _ _ => ?_) hC
    unfold storeBlock
    obtain ⟨cb, rest, hvtx, -⟩ := (hflag.checked hb).coinbase
    have hkey : p.hashBlock = block.getHash E := hC.tree.key hfound.entry
    have hreceived := hC.receivedBlockTransactions hfound.entry hdata hfound.good
      (hfound.parent hdata) (by rw [hvtx]; exact cons_ne_nil _ _) hfound.room
    rw [hkey]
    exact hreceived

/-- **`AcceptBlock` leaves a consistent index**, whether it succeeds or fails. -/
theorem acceptBlock_consistent (hN : N.index.Consistent params.consensus.hashGenesisBlock)
    (hblock : Acceptable E params connects turns N block) :
    (exec (acceptBlock (chainOps connects turns) E params literal block) N).2.index.Consistent
      params.consensus.hashGenesisBlock := by
  have hleaves : Leaves (acceptBlock (chainOps connects turns) E params literal block) N
      (fun _ => Sound params.consensus.hashGenesisBlock)
      (Sound params.consensus.hashGenesisBlock) := by
    unfold acceptBlock acceptIndex acceptChecks
    rw [bind_assoc, bind_assoc]
    refine (leaves_getPrevIndex hN hblock).bind fun pprev N₁ hprev => ?_
    have hN₁ : N₁.index.Consistent params.consensus.hashGenesisBlock := by
      rcases hprev with ⟨-, -, rfl⟩ | ⟨q, -, hfound⟩
      · exact hN
      · exact hfound.consistent
    rw [bind_assoc, leaves_state_bind, bind_assoc]
    refine leaves_ofResult_bind (fun _ _ => ?_) hN₁
    rw [bind_assoc]
    refine leaves_ofResult_bind (fun _ _ => ?_) hN₁
    rw [pure_bind, bind_assoc]
    refine (leaves_acceptBlockHeader hN hblock hprev).bind fun p N₂ hfound => ?_
    exact leaves_acceptData hblock.flag hfound
  exact hleaves.snd fun _ _ h => h

/-! ## The runs -/

/-- An operation of the node. -/
inductive Operation
  | acceptBlock (connects : Uint256 → Bool) (turns : ℕ) (block : CBlock)
  | activateBestChain (connects : Uint256 → Bool) (turns : ℕ)
  | invalidateBlock (pindex : CBlockIndex)
  | reconsiderBlock (pindex : CBlockIndex)
  /-- Any that leaves the block index alone. -/
  | other

namespace Operation

/-- What an operation does to the node. -/
inductive Performs (E : Env) (params : CChainParams) (literal : UInt64) :
    Operation → NodeState → NodeState → Prop
  | acceptBlock (connects : Uint256 → Bool) (turns : ℕ) (block : CBlock) (N : NodeState) :
      Performs E params literal (.acceptBlock connects turns block) N
        (exec (Passion.acceptBlock (chainOps connects turns) E params literal block) N).2
  | activateBestChain {connects : Uint256 → Bool} {turns : ℕ} {N : NodeState} {J : ChainIndex}
      (h : N.index.activateBestChain connects turns = some J) :
      Performs E params literal (.activateBestChain connects turns) N (N.setIndex J)
  | invalidateBlock {pindex : CBlockIndex} {N : NodeState}
      (h : N.mapBlockIndex.lookup pindex.hashBlock = some pindex) :
      Performs E params literal (.invalidateBlock pindex) N
        (N.setIndex (N.index.invalidateBlock pindex).1)
  | reconsiderBlock {pindex : CBlockIndex} {N : NodeState}
      (h : N.mapBlockIndex.lookup pindex.hashBlock = some pindex) :
      Performs E params literal (.reconsiderBlock pindex) N
        (N.setIndex (N.index.reconsiderBlock pindex))
  | other {N N' : NodeState} (h : N'.index = N.index) : Performs E params literal .other N N'

/-- **What an operation can handle.** -/
def Allowed (E : Env) (params : CChainParams) : Operation → NodeState → Prop
  | acceptBlock connects turns block, N => Acceptable E params connects turns N block
  | activateBestChain connects turns, N => N.index.KeepsChain connects turns
  | invalidateBlock pindex, _ => pindex.pprev ≠ none
  | reconsiderBlock pindex, N => N.index.AncestorsUnmarked pindex
  | other, _ => True

/-- **Every operation keeps the index consistent** that is given what it can handle. -/
theorem Performs.consistent {E : Env} {params : CChainParams} {literal : UInt64} {op : Operation}
    {N N' : NodeState} (hop : op.Performs E params literal N N') (hallowed : op.Allowed E params N)
    (h : N.index.Consistent params.consensus.hashGenesisBlock) :
    N'.index.Consistent params.consensus.hashGenesisBlock := by
  cases hop with
  | acceptBlock connects turns block => exact acceptBlock_consistent h hallowed
  | activateBestChain hrun => exact (h.activateBestChain hallowed hrun).1
  | invalidateBlock hp => exact h.invalidateBlock hp hallowed
  | reconsiderBlock hp => exact h.reconsiderBlock hp hallowed
  | other hsame => rwa [hsame]

end Operation

/-- A genesis block. -/
structure IsGenesisBlock (E : Env) (params : CChainParams) (block : CBlock) : Prop where
  hash : block.getHash E.toHashing = params.consensus.hashGenesisBlock
  parent : block.hashPrevBlock ≠ params.consensus.hashGenesisBlock
  transactions : block.vtx ≠ []
  small : block.vtx.length < 2 ^ 32

/-- The index without an entry. -/
def emptyIndex : ChainIndex :=
  { mapBlockIndex := ∅, pindexBestHeader := none, chainActive := [] }

/-- The index after the header of a block. -/
def withHeader (H : Hashing) (params : CChainParams) (literal : UInt64) (I : ChainIndex)
    (block : CBlock) : ChainIndex :=
  match addToBlockIndex H params literal I.toBlockTree block with
  | .ok (t, _) => { I with toBlockTree := t }
  | .error _ => I

/-- The index after the header and then the data of a block. -/
def stored (H : Hashing) (params : CChainParams) (literal : UInt64) (I : ChainIndex)
    (block : CBlock) : ChainIndex :=
  receivedBlockTransactions block (block.getHash H) (withHeader H params literal I block)

/-- **The node from its start on**: the genesis block was stored and connected, and then
operations were performed for which `allowed` holds. -/
inductive IndexRun (E : Env) (params : CChainParams) (literal : UInt64)
    (allowed : Operation → NodeState → Prop) : NodeState → Prop
  | start {block : CBlock} {connects : Uint256 → Bool} {turns : ℕ} {N : NodeState}
      (address : Uint256 ↪ ℕ) (hblock : IsGenesisBlock E params block)
      (hconn : connects params.consensus.hashGenesisBlock = true)
      (hrun : (stored E.toHashing params literal { emptyIndex with address := address }
        block).activateBestChain connects turns = some N.index) :
      IndexRun E params literal allowed N
  | step {op : Operation} {N N' : NodeState} (run : IndexRun E params literal allowed N)
      (hallowed : allowed op N) (hop : op.Performs E params literal N N') :
      IndexRun E params literal allowed N'

/-- The genesis block, stored in an empty index. -/
theorem alone_stored {block : CBlock} (hblock : IsGenesisBlock E params block)
    (address : Uint256 ↪ ℕ) :
    ∃ e, (stored E params literal { emptyIndex with address := address }
        block).Alone params.consensus.hashGenesisBlock e ∧
      (stored E params literal { emptyIndex with address := address }
        block).chainActive = [] := by
  have hhash := hblock.hash
  set I := { emptyIndex with address := address } with hI
  have hne : block.hashPrevBlock ≠ block.getHash E := by
    rw [hhash]
    exact hblock.parent
  obtain ⟨⟨t, p⟩, hadd⟩ : ∃ r, addToBlockIndex E params literal I.toBlockTree block = .ok r := by
    let p := ofBlock (block.getHash E) block
    have hnew : newBlockIndex E params literal (I.mapBlockIndex.insert (block.getHash E) p)
        (block.getHash E) block = .ok p := by
      have hlook : (I.mapBlockIndex.insert (block.getHash E) p).lookup block.hashPrevBlock = none :=
        AList.lookup_insert_ne hne
      rw [newBlockIndex, hlook]
    rw [addToBlockIndex]
    simp only [p] at hnew
    simp only [hnew]
    exact ⟨_, rfl⟩
  obtain ⟨hentry, hmap⟩ := addToBlockIndex_new rfl hne hadd
  rw [hhash] at hentry hmap
  have hheader : withHeader E params literal I block = { I with toBlockTree := t } := by
    rw [withHeader, hadd]
  have haccounted : { I with toBlockTree := t }.Accounted :=
    hentry.linking Waiting.empty hmap
  rw [stored, hheader, hhash]
  exact alone_received haccounted hmap.map hentry rfl rfl rfl hblock.transactions hblock.small

theorem IndexRun.consistent (run : IndexRun E params literal (Operation.Allowed E params) N) :
    N.index.Consistent params.consensus.hashGenesisBlock := by
  induction run with
  | start address hblock hconn hrun =>
    obtain ⟨e, halone, hactive⟩ := alone_stored hblock address
    obtain ⟨hend, hchain⟩ := halone.activateBestChain hactive hconn hrun
    exact hend.consistent hchain
  | step _ hallowed hop ih => exact hop.consistent hallowed ih

/-- **`CheckBlockIndex` holds in every state** that a node reaches by operations that are given
what they can handle. -/
theorem checkBlockIndex_of_run (run : IndexRun E params literal (Operation.Allowed E params) N) :
    N.index.CheckBlockIndex params.consensus.hashGenesisBlock :=
  run.consistent.checkBlockIndex

/-! ## A run of three blocks -/

namespace IndexRun

/-- A block with one transaction. -/
def lowBlock (hashPrevBlock : Uint256) (nHeight : UInt8) (nTime : UInt32) : CBlock :=
  NodeState.sampleBlock hashPrevBlock nTime [.coinbase [0x50 + nHeight, 0x00] [⟨0, [0x51]⟩]] []

def first : CBlock := lowBlock BaseUint.zero 1 0

def second : CBlock := lowBlock (first.getHash sampleEnv.toHashing) 1 60

def third : CBlock := lowBlock (second.getHash sampleEnv) 2 120

/-- The rules of the main net, with another genesis block. -/
def firstParams : CChainParams :=
  { mainParams with
    consensus := { mainParams.consensus with
      hashGenesisBlock := first.getHash sampleEnv.toHashing } }

/-- Every block connects. -/
def allConnect (_ : Uint256) : Bool := true

/-- The node with an activated chain. -/
def activated (N : NodeState) (I : ChainIndex) : NodeState :=
  N.setIndex ((I.activateBestChain allConnect 4).getD I)

/-- The node at its start. -/
def atFirst : NodeState :=
  activated { NodeState.fresh with nAdjustedTime := 200 }
    (stored sampleEnv.toHashing firstParams 0 emptyIndex first)

/-- The node after it was given a block. -/
def given (N : NodeState) (block : CBlock) : NodeState :=
  (exec (acceptBlock (chainOps allConnect 4) sampleEnv firstParams 0 block) N).2

/-- The node with the second block connected. -/
def atSecond : NodeState := activated (given atFirst second) (given atFirst second).index

/-- The node with the third block connected. -/
def atThird : NodeState := activated (given atSecond third) (given atSecond third).index

variable {allowed : Operation → NodeState → Prop}

/-- A block is accepted and the best chain activated. -/
theorem run_given {N : NodeState} {block : CBlock}
    (run : IndexRun sampleEnv firstParams 0 allowed N)
    (hgiven : allowed (.acceptBlock allConnect 4 block) N)
    (hactivate : allowed (.activateBestChain allConnect 4) (given N block))
    (h : ∃ J, (given N block).index.activateBestChain allConnect 4 = some J) :
    IndexRun sampleEnv firstParams 0 allowed (activated (given N block) (given N block).index) := by
  obtain ⟨J, hJ⟩ := h
  refine .step (.step run hgiven (.acceptBlock allConnect 4 block N)) hactivate ?_
  rw [activated, hJ]
  exact .activateBestChain hJ

theorem run_atFirst : IndexRun sampleEnv firstParams 0 allowed atFirst := by
  obtain ⟨J, hJ⟩ : ∃ J, (stored sampleEnv firstParams 0 emptyIndex first).activateBestChain
      allConnect 4 = some J := by decide +kernel
  refine .start emptyIndex.address ⟨rfl, by decide +kernel, by decide, by decide⟩ rfl (hJ.trans ?_)
  rw [atFirst, activated, hJ]
  rfl

theorem acceptable_second : Acceptable sampleEnv firstParams allConnect 4 atFirst second := by
  have hnew : atFirst.mapBlockIndex.lookup (second.getHash sampleEnv) = none := by
    decide +kernel
  have hall : ∀ q, atFirst.mapBlockIndex.lookup second.hashPrevBlock = some q →
      q.nChainWork.toNat < (q.nChainWork.add (getBlockProof second.nBits)).toNat ∧
        ((q.ancestors atFirst.mapBlockIndex).map (·.nTx)).sum + second.vtx.length < 2 ^ 32 ∧
        q.nStatus.failed = false := by
    decide +kernel
  refine ⟨fun hflag => absurd hflag (by decide), fun hp => ?_, fun hq => (hall _ hq).1,
    by unfold RoomFor; decide +kernel, fun hq => (hall _ hq).2.1, fun hq hfailed => ?_⟩
  · cases hnew.symm.trans hp
  · cases (hall _ hq).2.2.symm.trans hfailed

/-- The second block is accepted and connected. -/
theorem checkBlockIndex_of_run_second :
    IndexRun sampleEnv firstParams 0 (Operation.Allowed sampleEnv firstParams) atSecond ∧
      atSecond.index.CheckBlockIndex firstParams.consensus.hashGenesisBlock := by
  have hkeep : (given atFirst second).index.KeepsChain allConnect 4 := by decide +kernel
  have hrun : IndexRun sampleEnv firstParams 0 (Operation.Allowed sampleEnv firstParams)
      atSecond := run_given run_atFirst acceptable_second hkeep (by decide +kernel)
  exact ⟨hrun, checkBlockIndex_of_run hrun⟩

/-- The second block is invalidated. -/
def withoutSecond : NodeState :=
  match atThird.mapBlockIndex.lookup (second.getHash sampleEnv) with
  | some pindex => atThird.setIndex (atThird.index.invalidateBlock pindex).1
  | none => atThird

/-- And the third block is reconsidered. -/
def withThird : NodeState :=
  match withoutSecond.mapBlockIndex.lookup (third.getHash sampleEnv) with
  | some pindex => withoutSecond.setIndex (withoutSecond.index.reconsiderBlock pindex)
  | none => withoutSecond

/-- **A candidate is forgotten.** Two blocks are connected, the lower one is invalidated and
the upper one reconsidered. No block is marked any more, but the lower one is not a candidate,
though it has more work than the tip. -/
theorem not_checkBlockIndex_of_run :
    ¬ ∀ (E : Env) (params : CChainParams) (literal : UInt64) (N : NodeState),
      IndexRun E params literal (fun _ _ => True) N →
      N.index.CheckBlockIndex params.consensus.hashGenesisBlock := by
  intro hall
  have hsecond : IndexRun sampleEnv firstParams 0 (fun _ _ => True) atSecond :=
    run_given run_atFirst trivial trivial (by decide +kernel)
  have hthird : IndexRun sampleEnv firstParams 0 (fun _ _ => True) atThird :=
    run_given hsecond trivial trivial (by decide +kernel)
  have hwithout : IndexRun sampleEnv firstParams 0 (fun _ _ => True) withoutSecond := by
    unfold withoutSecond
    split
    · refine .step hthird trivial (.invalidateBlock ?_)
      rename_i pindex hp
      revert pindex
      decide +kernel
    · exact hthird
  have hwith : IndexRun sampleEnv firstParams 0 (fun _ _ => True) withThird := by
    unfold withThird
    split
    · refine .step hwithout trivial (.reconsiderBlock ?_)
      rename_i pindex hp
      revert pindex
      decide +kernel
    · exact hwithout
  have hcheck := hall _ _ _ _ hwith
  revert hcheck
  decide +kernel

end IndexRun

end Passion
