import Passion.Chain.Accounts

/-!
# New entries and the totals

`AddToBlockIndex` makes an entry for a block that is not in the map. The entry has no data yet, so
the totals of the other entries stay what they are. Marks of failure and validity levels do not
enter into the totals either.
-/

namespace Passion

open List MachineNumber CBlockIndex

/-! ## Changes that leave the totals -/

/-- The two entries know the same of their block and carry the same totals. -/
structure SameTotals (p p' : CBlockIndex) : Prop where
  account : SameAccount p p'
  nChainTx : p'.nChainTx = p.nChainTx
  nChainSaplingValue : p'.nChainSaplingValue = p.nChainSaplingValue

theorem Totals.of_related {m m' : BlockMap} (h : Totals m) (hrel : m.Related SameTotals m') :
    Totals m' := by
  have hacc := hrel.mono SameTotals.account
  refine ⟨hacc.isTree SameAccount.keepsPlace h.tree, fun {k q'} hq' => ?_⟩
  obtain ⟨q, hq, hqq⟩ := hrel.lookup_right hq'
  have hold := h.entry hq
  refine h.entry_of_related hacc hq hq' hqq.account ?_ ?_
  · rw [hqq.nChainTx, hqq.nChainSaplingValue]
    exact hold.linked
  · rw [hqq.nChainTx, hqq.nChainSaplingValue]
    exact hold.unlinked

/-- **Marks do not matter for the accounts.** -/
theorem Waiting.of_related {todo : List Uint256} {waiting : List (Uint256 × Uint256)}
    {m m' : BlockMap} (h : Waiting todo waiting m) (hrel : m.Related SameTotals m') :
    Waiting todo waiting m' := by
  refine { toTotals := h.toTotals.of_related hrel, placed := ?_, waits := ?_,
           todo_nodup := h.todo_nodup, waiting_nodup := h.waiting_nodup }
  · intro k q' hq' hdata hzero
    obtain ⟨q, hq, hqq⟩ := hrel.lookup_right hq'
    rw [hqq.account.pprev]
    exact h.placed hq (hqq.account.haveData ▸ hdata) (hqq.nChainTx ▸ hzero)
  · intro g k hw
    obtain ⟨⟨q, hq, hprev, hdata, hzero⟩, r, hr, hrzero⟩ := h.waits hw
    obtain ⟨q', hq', hqq⟩ := hrel.lookup hq
    obtain ⟨r', hr', hrr⟩ := hrel.lookup hr
    exact ⟨⟨q', hq', hqq.account.pprev.trans hprev, hqq.account.haveData.trans hdata,
      hqq.nChainTx.trans hzero⟩, r', hr', hrr.nChainTx.trans hrzero⟩

/-! ## A new entry -/

/-- The entry `AddToBlockIndex` makes for a block that is not in the map. -/
structure NewEntry (m : BlockMap) (hash : Uint256) (block : CBlock) (p : CBlockIndex) : Prop where
  hashBlock : p.hashBlock = hash
  pprev : p.pprev = (m.lookup block.hashPrevBlock).map fun _ => block.hashPrevBlock
  nHeight : p.nHeight = ((m.lookup block.hashPrevBlock).map fun q => q.nHeight + 1).getD 0
  nStatus : p.nStatus = BlockStatus.none.raise BlockStatus.BLOCK_VALID_TREE
  nTx : p.nTx = 0
  nChainTx : p.nChainTx = 0
  nSaplingValue : p.nSaplingValue = 0
  nChainSaplingValue : p.nChainSaplingValue = none
  nVersion : p.nVersion = block.nVersion
  nBits : p.nBits = block.nBits
  nSequenceId : p.nSequenceId = 0
  nChainWork : p.nChainWork =
    (((m.lookup block.hashPrevBlock).map (·.nChainWork)).getD BaseUint.zero).add
      (getBlockProof block.nBits)

/-- **What `AddToBlockIndex` stores for a new block.** -/
theorem addToBlockIndex_new {H : Hashing} {params : CChainParams} {literal : UInt64}
    {t t' : BlockTree} {block : CBlock} {p : CBlockIndex}
    (hnew : t.mapBlockIndex.lookup (block.getHash H) = none)
    (hne : block.hashPrevBlock ≠ block.getHash H)
    (h : addToBlockIndex H params literal t block = .ok (t', p)) :
    NewEntry t.mapBlockIndex (block.getHash H) block p ∧
      t.mapBlockIndex.Extends t'.mapBlockIndex (block.getHash H) p := by
  refine ⟨?_, ?_⟩
  · unfold addToBlockIndex at h
    simp only [hnew] at h
    have hlook : (t.mapBlockIndex.insert (block.getHash H)
        (ofBlock (block.getHash H) block)).lookup block.hashPrevBlock =
        t.mapBlockIndex.lookup block.hashPrevBlock := AList.lookup_insert_ne hne
    unfold newBlockIndex at h
    rw [hlook] at h
    cases hprev : t.mapBlockIndex.lookup block.hashPrevBlock with
    | none =>
      simp only [hprev] at h
      obtain ⟨-, rfl⟩ := h
      constructor <;> simp [finish, ofBlock, CBlockIndex.prev, hprev]
    | some q =>
      simp only [hprev] at h
      split at h
      · cases h
      · rename_i r hr
        obtain ⟨-, rfl⟩ := h
        split at hr
        · simp only [Except.ok.injEq] at hr
          subst hr
          constructor <;> simp [finish, ofBlock, CBlockIndex.prev,
            setNewStakeModifierV1, hprev, AList.lookup_insert_ne hne]
        · split at hr
          · cases hr
          · simp only [Except.ok.injEq] at hr
            subst hr
            constructor <;> simp [finish, ofBlock, CBlockIndex.prev,
              setNewStakeModifierV2, hprev, AList.lookup_insert_ne hne]
  · rcases addToBlockIndex_cases h with ⟨hold, -⟩ | ⟨-, -, -, -, -, hmap⟩
    · rw [hnew] at hold
      cases hold
    · exact ⟨hnew, hmap⟩

variable {m m' : BlockMap} {hash k g : Uint256} {block : CBlock} {p p' : CBlockIndex}
variable {rest : List Uint256}

namespace NewEntry

variable (hp : NewEntry m hash block p)

include hp

theorem haveData : p.nStatus.haveData = false := by
  rw [hp.nStatus]
  rfl

/-- A map that got a leaf is a tree still. -/
theorem isTree (hm : m.IsTree) (hext : m.Extends m' hash p) : m'.IsTree := by
  refine ⟨?_, ?_, ?_, ?_⟩
  · intro k q hq
    rcases hext.cases hq with ⟨rfl, rfl⟩ | hq
    · exact hp.hashBlock
    · exact hm.key hq
  · intro k q hq hroot
    rcases hext.cases hq with ⟨rfl, rfl⟩ | hq
    · rw [hp.pprev, Option.map_eq_none_iff] at hroot
      rw [hp.nHeight, hroot]
      rfl
    · exact hm.root hq hroot
  · intro k q g hq hprev
    rcases hext.cases hq with ⟨rfl, rfl⟩ | hq
    · rw [hp.pprev, Option.map_eq_some_iff] at hprev
      obtain ⟨r, hr, rfl⟩ := hprev
      refine ⟨r, hext.keep hr, ?_⟩
      rw [hp.nHeight, hr]
      rfl
    · obtain ⟨r, hr, hheight⟩ := hm.parent hq hprev
      exact ⟨r, hext.keep hr, hheight⟩
  · intro k q hq
    rcases hext.cases hq with ⟨rfl, rfl⟩ | hq
    · rw [hp.nHeight]
      cases hprev : m.lookup block.hashPrevBlock with
      | none => exact le_refl 0
      | some r =>
        have hnonneg := hm.nonneg hprev
        simp only [Option.map_some, Option.getD_some]
        omega
    · exact hm.nonneg hq

/-- **`AddToBlockIndex` keeps the accounts in order**: the new block has no data. -/
theorem linking {waiting : List (Uint256 × Uint256)} (h : Waiting [] waiting m)
    (hext : m.Extends m' hash p) : Waiting [] waiting m' := by
  have htree := hp.isTree h.tree hext
  refine { tree := htree, entry := fun {k q} hq => ?_, placed := fun {k q} hq hdata hzero => ?_,
           waits := fun {g k} hw => ?_, todo_nodup := h.todo_nodup,
           waiting_nodup := h.waiting_nodup }
  · rcases hext.cases hq with ⟨rfl, rfl⟩ | hold
    · refine ⟨by simp [hp.haveData, hp.nTx], by rw [hp.nSaplingValue]; rfl, ?_,
        (absurd hp.nChainTx), fun _ => hp.nChainSaplingValue⟩
      cases hprev : q.pprev with
      | none =>
        rw [chainTxs, htree.sum_root hq _ hprev, hp.nTx]
        omega
      | some g =>
        obtain ⟨r, hr, -⟩ := htree.parent hq hprev
        have hr' := (hext.cases hr).resolve_left fun heq => htree.parent_ne hq hprev heq.1
        rw [chainTxs, htree.sum_child hq _ hprev hr, hp.nTx, hext.ancestors h.tree htree hr']
        exact (h.entry hr').small
    · have hentry := h.entry hold
      have hsame := hext.ancestors h.tree htree hold
      refine ⟨hentry.counted, hentry.amount, ?_, ?_, hentry.unlinked⟩
      · rw [chainTxs, hsame]
        exact hentry.small
      · rw [Complete, chainTxs, chainSapling, hsame]
        exact hentry.linked
  · rcases hext.cases hq with ⟨rfl, rfl⟩ | hq
    · rw [hp.haveData] at hdata
      cases hdata
    · exact h.placed hq hdata hzero
  · obtain ⟨⟨q, hq, hrest⟩, r, hr, hrzero⟩ := h.waits hw
    exact ⟨⟨q, hext.keep hq, hrest⟩, r, hext.keep hr, hrzero⟩

end NewEntry

end Passion
