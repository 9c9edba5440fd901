import Passion.Chain.Consistency

/-!
# The index with the genesis block

`LoadGenesisBlock` adds the genesis block to an empty index and stores its data, and
`ActivateBestChain` connects it. The index that is left is consistent.
-/

namespace Passion

open List CBlockIndex Option
open BlockStatus hiding none

namespace ChainIndex

variable {connects : Uint256 → Bool} {genesis : Uint256} {I J : ChainIndex} {e : CBlockIndex}

/-- **The genesis block alone**: the only entry, with its data, and the only candidate. -/
structure Alone (genesis : Uint256) (I : ChainIndex) (e : CBlockIndex) : Prop where
  accounts : I.Accounted
  lookup : ∀ k, I.mapBlockIndex.lookup k = if k = genesis then some e else none
  pprev : e.pprev = none
  haveData : e.nStatus.haveData = true
  good : e.nStatus.failed = false
  valid : BLOCK_VALID_TRANSACTIONS ≤ e.nStatus.valid
  valid_lt : e.nStatus.valid < BLOCK_VALID_CHAIN
  linked : e.nChainTx ≠ 0
  candidates : I.setBlockIndexCandidates = [genesis]

namespace Alone

variable (h : I.Alone genesis e)

include h

theorem entry : I.mapBlockIndex.lookup genesis = some e := by
  rw [h.lookup, if_pos rfl]

theorem hashBlock : e.hashBlock = genesis := h.accounts.tree.key h.entry

theorem ancestors : e.ancestors I = [e] :=
  h.accounts.tree.ancestors_root h.entry h.pprev

theorem eq_of_lookup {k : Uint256} {a : CBlockIndex} (ha : I.mapBlockIndex.lookup k = some a) :
    k = genesis ∧ a = e := by
  rw [h.lookup] at ha
  split at ha
  · rename_i hk
    exact ⟨hk, (some.inj ha).symm⟩
  · cases ha

/-- **The index is consistent** when the genesis block is connected. -/
theorem consistent (hactive : I.chainActive = [genesis]) : I.Consistent genesis := by
  have htip : I.IsChain e := by
    refine ⟨by rw [h.hashBlock]; exact h.entry, ?_⟩
    rw [hactive, h.ancestors, map_singleton, h.hashBlock]
    rfl
  have hcomplete : e.Complete I := by
    rw [Complete, h.ancestors]
    intro a ha
    rw [mem_singleton.mp ha]
    exact h.haveData
  have hlevel : e.AllAtLeast I BLOCK_VALID_SCRIPTS := by
    rw [AllAtLeast, h.ancestors]
    intro a ha hprev
    rw [mem_singleton.mp ha] at hprev
    exact absurd h.pprev hprev
  have hbetter : I.NotWorse e := (notWorse_iff htip h.accounts.tree).mpr (le_refl _)
  have hgood : e.Unmarked I := by
    rw [Unmarked, h.ancestors]
    intro a ha
    rw [mem_singleton.mp ha]
    exact h.good
  refine { tree := h.accounts.tree, entry := fun {k a} ha => ?_, accounts := h.accounts,
           chain := ⟨e, htip, ⟨hcomplete, hgood⟩, hlevel⟩, sequence := fun {k a} ha hzero => ?_,
           stored := fun {k a} ha => ?_, candidates := fun {k} hin => ?_,
           kept := fun {k a} ha _ _ _ => ?_ }
  · obtain ⟨rfl, rfl⟩ := h.eq_of_lookup ha
    refine ⟨fun _ => rfl, fun {g q} hprev => ?_, le_trans (by decide) h.valid,
      fun hle => absurd hle (not_le.mpr h.valid_lt), fun hfail => ?_⟩
    · rw [h.pprev] at hprev
      cases hprev
    · rw [h.good] at hfail
      cases hfail
  · rw [(h.eq_of_lookup ha).2] at hzero
    exact absurd hzero h.linked
  · rw [(h.eq_of_lookup ha).2]
    exact iff_of_true h.valid h.haveData
  · rw [h.candidates, mem_singleton] at hin
    exact ⟨e, by rw [hin]; exact h.entry, h.linked, hbetter⟩
  · rw [h.candidates, (h.eq_of_lookup ha).1]
    exact mem_singleton_self genesis

/-- `ConnectTip` of the genesis block leaves its entry as it is. -/
theorem connected :
    Alone genesis { I.modify genesis connected with chainActive := [genesis] } e := by
  have hlookup : ∀ k, (I.mapBlockIndex.modify genesis CBlockIndex.connected).lookup k =
      I.mapBlockIndex.lookup k := by
    intro k
    rw [BlockMap.lookup_modify]
    split
    · rename_i hk
      have hsame : e.connected = e := by
        rw [CBlockIndex.connected, h.pprev]
        rfl
      rw [hk, h.entry, map_some, hsame]
    · rfl
  have hchange : Change I { I.modify genesis CBlockIndex.connected with chainActive := [genesis] }
      id := Change.of_map (fun k => by rw [Option.map_id]; exact hlookup k) Remarked.refl rfl
  exact { h with
    accounts := h.accounts.of_related hchange.related_sameTotals
    lookup := fun k => (hlookup k).trans (h.lookup k) }

/-- **`ActivateBestChain` connects the genesis block.** -/
theorem activateBestChain (hactive : I.chainActive = []) (hconn : connects genesis = true)
    {turns : ℕ} (hrun : I.activateBestChain connects turns = some J) :
    J.Alone genesis e ∧ J.chainActive = [genesis] := by
  have hnew := h.connected
  set K := { I.modify genesis CBlockIndex.connected with chainActive := [genesis] } with hK
  have hcontains : ∀ p, I.chainContains p = false := by
    intro p
    rw [chainContains, hactive]
    simp
  have hbest : I.bestCandidate = some e := by
    simp [bestCandidate, h.candidates, h.entry]
  have hbranch : I.branch e = [e] := by
    simp [branch, h.ancestors, hcontains]
  have husable : firstUnusable [e] = some none := by
    simp [firstUnusable, h.linked, h.good, h.haveData]
  have hfind : I.findMostWorkChain = some (I, some e) := by
    simp [findMostWorkChain, findMostWorkLoop, hbest, hbranch, husable]
  have hfork : I.findFork e = none := by
    simp [findFork, hcontains]
  have htip : K.chainTip = some e := by
    exact hnew.entry
  have hprune : K.pruneBlockIndexCandidates = some K := by
    have hcand : K.setBlockIndexCandidates = [genesis] := hnew.candidates
    have hless : K.workLess e e = false := by
      rw [← Bool.not_eq_true, workLess_iff]
      exact lt_irrefl _
    have hrest : K.setBlockIndexCandidates.filter (fun h =>
        !(K.mapBlockIndex.lookup h).any fun p => K.chainTip.any (K.workLess p)) =
        K.setBlockIndexCandidates := by
      rw [hcand, htip]
      simp [hnew.entry, hless]
    rw [pruneBlockIndexCandidates, hrest, if_neg (by rw [hcand]; exact Bool.false_ne_true)]
  have hconnect : I.connectTip connects e = some (K, true) := by
    simp [connectTip, h.pprev, hactive, h.hashBlock, hconn, hK]
  have hstep : I.activateBestChainStep connects e = some (K, false) := by
    have hold : I.chainTip = none := by simp [chainTip, hactive]
    simp [activateBestChainStep, hfork, hactive, hbranch, connectChunks, connectBlocks, hconnect,
      hprune, hold]
  cases turns with
  | zero => cases hrun
  | succ turns =>
    rw [ChainIndex.activateBestChain, activateLoop] at hrun
    have hlast : K.chainActive.getLast? = some genesis := rfl
    simp [hfind, hactive, hstep, hlast, htip, h.hashBlock] at hrun
    rw [← hrun]
    exact ⟨hnew, rfl⟩

end Alone

/-- **The data of the genesis block arrives** at an index with its header. -/
theorem alone_received {block : CBlock} {p : CBlockIndex} (hm : I.Accounted)
    (hlookup : ∀ k, I.mapBlockIndex.lookup k = if k = genesis then some p else none)
    (hentry : NewEntry ∅ genesis block p) (hunlinked : I.mapBlocksUnlinked = [])
    (hcand : I.setBlockIndexCandidates = []) (hactive : I.chainActive = [])
    (hvtx : block.vtx ≠ []) (hlength : block.vtx.length < 2 ^ 32) :
    ∃ e, (receivedBlockTransactions block genesis I).Alone genesis e ∧
      (receivedBlockTransactions block genesis I).chainActive = [] := by
  have hp : I.mapBlockIndex.lookup genesis = some p := by rw [hlookup, if_pos rfl]
  have hroot : p.pprev = none := by rw [hentry.pprev]; rfl
  have hanc : p.ancestors I = [p] := hm.tree.ancestors_root hp hroot
  have hroom : I.RoomFor genesis block := by
    intro k q hq
    rw [hlookup] at hq
    split at hq
    · cases hq
      rw [hanc, map_singleton, if_pos hentry.hashBlock]
      exact hlength
    · cases hq
  have hacc := receivedBlockTransactions_accounted hm hp hentry.haveData
    (fun g q hg => by rw [hroot] at hg; cases hg) hvtx hroom
  set m := I.mapBlockIndex.insert genesis (p.received block) with hm'
  set e := (p.received block).linked m I.nBlockSequenceId with he
  have hprev : (p.received block).prev m = none := by simp [CBlockIndex.prev, received, hroot]
  -- Nothing waits, so that the loop has one turn, and there is no tip.
  have hreceived : receivedBlockTransactions block genesis I = { I with
        mapBlockIndex := m.insert genesis e
        nBlockSequenceId := (I.nBlockSequenceId + 1) % 2 ^ 32
        setBlockIndexCandidates := [genesis]
        mapBlocksUnlinked := [] } := by
    have hlook : m.lookup genesis = some (p.received block) := AList.lookup_insert _
    simp [receivedBlockTransactions, hp, ← hm', hprev, linkBlocks, hunlinked, Worklist.drain,
      Worklist.waitingFor, Worklist.others, linkBlock, hlook, chainTip, hactive, insertCandidate,
      hcand, ← he]
  have hstatus : e.nStatus = ⟨BLOCK_VALID_TRANSACTIONS, true, false, false, false⟩ := by
    show (p.received block).nStatus = _
    rw [received, hentry.nStatus]
    rfl
  refine ⟨e, ?_, by rw [hreceived]; exact hactive⟩
  rw [hreceived] at hacc ⊢
  refine { accounts := hacc, lookup := fun k => ?_, pprev := hroot, haveData := by rw [hstatus],
           good := by rw [hstatus]; rfl, valid := by rw [hstatus],
           valid_lt := by rw [hstatus]; decide, linked := ?_, candidates := rfl }
  · split
    · rename_i hk
      rw [hk, AList.lookup_insert]
    · rename_i hk
      rw [AList.lookup_insert_ne hk, AList.lookup_insert_ne hk, hlookup, if_neg hk]
  · show ((((p.received block).prev m).map (·.nChainTx)).getD 0 +
      block.vtx.length % 2 ^ 32) % 2 ^ 32 ≠ 0
    have hpos := length_pos_iff.mpr hvtx
    rw [hprev]
    simp only [map_none, getD_none]
    omega

end ChainIndex

end Passion
