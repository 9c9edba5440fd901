import Passion.Mining.Assembler

/-!
# The assembler and the limits of a block

`CheckBlock` limits the size of a block, the size of its shielded transactions and its legacy
signature operations. `TestForBlock` compares counters of its own with limits of its own: it
reserves a constant for the first transactions, and it allows `MAX_BLOCK_SIGOPS_CURRENT` operations
where `CheckBlock` allows `MAX_BLOCK_SIGOPS_LEGACY`. The shielded size is kept.
-/

namespace Passion

open List BlockAssembler CTransaction CBlock

variable {D : Type} {ops : DoubleOps D} {H : Hashing} {c : AssemblerContext}
variable {pool : TxMemPool D}

/-! ## The limits -/

/-- **The limits `CheckBlock` tests.** -/
structure CBlock.WithinLimits (block : CBlock) : Prop where
  count : block.vtx.length ≤ MAX_BLOCK_SIZE_CURRENT
  size : block.serialize.length ≤ MAX_BLOCK_SIZE_CURRENT
  shielded : block.serialize.length > MAX_BLOCK_SHIELDED_TXES_SIZE →
    getTotalShieldedTxSize block ≤ MAX_BLOCK_SHIELDED_TXES_SIZE
  sigOps : (block.vtx.map getLegacySigOpCount).sum ≤ MAX_BLOCK_SIGOPS_LEGACY

namespace CBlock

/-- The block with other transactions. -/
def withTxs (header : CBlock) (vtx : List CTransaction) : CBlock := { header with vtx := vtx }

variable (header : CBlock) (vtx : List CTransaction)

/-- The size of a block, part by part. -/
theorem length_serialize_withTxs :
    (header.withTxs vtx).serialize.length =
      header.serializeHeader.length + (compactSize vtx.length).length +
        (vtx.map (·.getTotalSize)).sum +
        (if (header.withTxs vtx).isProofOfStake then (varBytes header.vchBlockSig).length else 0) := by
  have hsig : (if (header.withTxs vtx).isProofOfStake then varBytes header.vchBlockSig
      else []).length =
      if (header.withTxs vtx).isProofOfStake then (varBytes header.vchBlockSig).length else 0 := by
    split <;> rfl
  rw [serialize, length_append, length_append, vectorBytes, length_append, length_flatMap]
  simp only [withTxs] at hsig ⊢
  rw [hsig]
  have hheader : serializeHeader { header with vtx := vtx } = header.serializeHeader := rfl
  rw [hheader]
  simp only [getTotalSize]
  omega

theorem length_compactSize_le (n : ℕ) : (compactSize n).length ≤ 9 := by
  unfold compactSize
  split_ifs <;> simp

/-- Every transaction has a byte, so the size bounds their number. -/
theorem length_vtx_le : vtx.length ≤ (header.withTxs vtx).serialize.length := by
  have hone : ∀ n ∈ vtx.map (·.getTotalSize), 1 ≤ n := by
    simp only [mem_map]
    rintro _ ⟨tx, -, rfl⟩
    simp only [CTransaction.getTotalSize, CTransaction.serialize, length_append,
      Bytes.ofNatLE_length]
    omega
  have hlen := length_le_sum_of_one_le _ hone
  rw [length_map] at hlen
  rw [length_serialize_withTxs]
  omega

/-- The shielded size of a block, transaction by transaction. -/
theorem getTotalShieldedTxSize_withTxs :
    getTotalShieldedTxSize (header.withTxs vtx) =
      (vtx.map fun tx => if tx.isShieldedTx then tx.getTotalSize else 0).sum := by
  change ((vtx.filter _).map _).sum = _
  induction vtx with
  | nil => rfl
  | cons tx vtx ih =>
    rw [filter_cons, map_cons, sum_cons, ← ih]
    split <;> simp

end CBlock

/-! ## One offer -/

variable {s t : BlockAssembler} {iter : CTxMemPoolEntry D}

namespace BlockAssembler

/-- **What the test leaves**: only the counters that end the loops. -/
theorem testForBlock_snd (s : BlockAssembler) (iter : CTxMemPoolEntry D) :
    ∃ few fin, (s.testForBlock c iter).2 = { s with lastFewTxs := few, blockFinished := fin } := by
  unfold testForBlock
  dsimp only
  split_ifs <;> exact ⟨_, _, rfl⟩

/-- An entry that passes is below the limits of the assembler. -/
theorem of_testForBlock (h : (s.testForBlock c iter).1 = true) :
    (s.testForBlock c iter).2 = s ∧ s.nBlockSize + iter.nTxSize % 2 ^ 32 < c.nBlockMaxSize ∧
    (iter.isShielded = true →
      (s.nSizeShielded + iter.nTxSize % 2 ^ 32) % 2 ^ 32 ≤ MAX_BLOCK_SHIELDED_TXES_SIZE) ∧
    (s.nBlockSigOps + iter.sigOpCount) % 2 ^ 32 < MAX_BLOCK_SIGOPS_CURRENT := by
  unfold testForBlock at h ⊢
  dsimp only at h ⊢
  split_ifs at h ⊢ with h₁ h₂ h₃ h₄ h₅ h₆ h₇ h₈
  refine ⟨rfl, by omega, fun hshielded => ?_, by omega⟩
  simp only [hshielded, Bool.true_and, decide_eq_true_eq, Nat.not_lt] at h₅
  exact h₅

theorem offer_eq (s : BlockAssembler) (iter : CTxMemPoolEntry D) :
    s.offer H c iter =
      if (s.testForBlock c iter).1 then (s.testForBlock c iter).2.addToBlock H iter
      else (s.testForBlock c iter).2 := rfl

/-- **An offer** adds the entry, if it passes, and changes nothing of the block else. -/
theorem offer_cases (s : BlockAssembler) (iter : CTxMemPoolEntry D) :
    ((s.testForBlock c iter).1 = true ∧ s.offer H c iter = s.addToBlock H iter) ∨
    ((s.testForBlock c iter).1 = false ∧
      ∃ few fin, s.offer H c iter = { s with lastFewTxs := few, blockFinished := fin }) := by
  cases hfits : (s.testForBlock c iter).1 with
  | true =>
    refine .inl ⟨rfl, ?_⟩
    rw [offer_eq, hfits, if_pos rfl, (of_testForBlock hfits).1]
  | false =>
    refine .inr ⟨rfl, ?_⟩
    rw [offer_eq, hfits]
    exact testForBlock_snd s iter

end BlockAssembler

/-! ## What a template lists -/

variable {vtx : List CTransaction}

/-- **What `AddToBlock` lists**: different entries of the pool, in the order of the block. -/
structure BlockAssembler.Lists (H : Hashing) (pool : TxMemPool D) (vtx : List CTransaction)
    (added : List (CTxMemPoolEntry D)) (s : BlockAssembler) : Prop where
  entries : ∀ e ∈ added, e ∈ pool.entries
  different : (added.map (·.hash H)).Nodup
  inBlock : s.inBlock = (added.map (·.hash H)).reverse
  txs : s.vtx = vtx ++ added.map (·.tx)
  fees : s.vTxFees = -1 :: added.map (·.nFee)
  sigOps : s.vTxSigOps = -1 :: added.map fun e => (e.sigOpCount : ℤ)
  total : s.nFees = (added.map (·.nFee)).sum
  count : s.nBlockTx = added.length

namespace BlockAssembler.Lists

variable {added : List (CTxMemPoolEntry D)}

theorem start : Lists H pool vtx [] (.start vtx) :=
  ⟨by simp, nodup_nil, rfl, by simp [BlockAssembler.start], rfl, rfl, rfl, rfl⟩

/-- An entry that is not in the block is listed when it is added. -/
theorem addToBlock (h : Lists H pool vtx added s) (hiter : iter ∈ pool.entries)
    (hnew : s.contains H iter = false) :
    Lists H pool vtx (added ++ [iter]) (s.addToBlock H iter) := by
  have hnot : iter.hash H ∉ added.map (·.hash H) := by
    simpa [contains, h.inBlock] using hnew
  refine ⟨forall_mem_append.mpr ⟨h.entries, by simpa using hiter⟩, ?_, ?_, ?_, ?_, ?_, ?_, ?_⟩
  · simpa using Nodup.concat hnot h.different
  all_goals
    simp [BlockAssembler.addToBlock, h.inBlock, h.txs, h.fees, h.sigOps, h.total, h.count]

/-- What differs only in the counters that end the loops lists the same. -/
theorem counters (h : Lists H pool vtx added s) (few : ℕ) (fin : Bool) :
    Lists H pool vtx added { s with lastFewTxs := few, blockFinished := fin } :=
  ⟨h.entries, h.different, h.inBlock, h.txs, h.fees, h.sigOps, h.total, h.count⟩

end BlockAssembler.Lists

/-- **Every template is accounted for.** Its assembler has added entries of the pool to the first
transactions, and its lists and totals are theirs. -/
theorem createNewBlock_lists (params : CChainParams) (first : FirstTxs) (header : CBlock)
    {template : CBlockTemplate}
    (h : createNewBlock ops H c pool params first header = .ok template) :
    ∃ s added, Lists H pool (first.vtx params c.nHeight) added s ∧
      template = s.template first.fProofOfStake header := by
  have hkeep : OffersKeep H c pool
      fun s => ∃ added, Lists H pool (first.vtx params c.nHeight) added s := by
    rintro s iter hiter hnew ⟨added, hlists⟩
    rcases s.offer_cases iter with ⟨-, heq⟩ | ⟨-, few, fin, heq⟩
    · rw [heq]
      exact ⟨_, hlists.addToBlock hiter hnew⟩
    · rw [heq]
      exact ⟨added, hlists.counters few fin⟩
  obtain ⟨s, ⟨added, hlists⟩, heq⟩ :=
    (createNewBlock_meets hkeep params first header ⟨[], .start⟩).of_ok h
  exact ⟨s, added, hlists, heq⟩

/-! ## What may be selected -/

/-- The size of an entry, where it is shielded. -/
def CTxMemPoolEntry.shieldedSize (e : CTxMemPoolEntry D) : ℕ := if e.isShielded then e.nTxSize else 0

/-- **What the limits of the assembler let through together**: different entries of the pool
with the reserved space within `nBlockMaxSize`, and within the limits of shielded sizes and of
signature operations. -/
structure PoolSelection (H : Hashing) (c : AssemblerContext) (pool : TxMemPool D)
    (added : List (CTxMemPoolEntry D)) : Prop where
  entries : ∀ e ∈ added, e ∈ pool.entries
  different : (added.map (·.hash H)).Nodup
  size : 1000 + (added.map (·.nTxSize)).sum ≤ c.nBlockMaxSize
  shielded : (added.map (·.shieldedSize)).sum ≤ MAX_BLOCK_SHIELDED_TXES_SIZE
  sigOps : 100 + (added.map (·.sigOpCount)).sum ≤ MAX_BLOCK_SIGOPS_CURRENT

/-- No entry is larger than a block, or has more signature operations. -/
def TxMemPool.Modest (pool : TxMemPool D) : Prop :=
  ∀ e ∈ pool.entries, e.nTxSize ≤ MAX_BLOCK_SIZE_CURRENT ∧ e.sigOpCount ≤ MAX_BLOCK_SIGOPS_CURRENT

/-- **The counters of the assembler are right**: they count the entries that were added, which
are within its limits. -/
structure BlockAssembler.Selects (H : Hashing) (c : AssemblerContext) (pool : TxMemPool D)
    (vtx : List CTransaction) (added : List (CTxMemPoolEntry D)) (s : BlockAssembler) : Prop where
  lists : Lists H pool vtx added s
  within : PoolSelection H c pool added
  size : s.nBlockSize = 1000 + (added.map (·.nTxSize)).sum
  shielded : s.nSizeShielded = (added.map (·.shieldedSize)).sum
  sigOps : s.nBlockSigOps = 100 + (added.map (·.sigOpCount)).sum

namespace BlockAssembler.Selects

variable {added : List (CTxMemPoolEntry D)}

theorem nBlockMaxSize_le (c : AssemblerContext) : c.nBlockMaxSize ≤ MAX_BLOCK_SIZE_CURRENT := by
  unfold AssemblerContext.nBlockMaxSize
  have hlimit : MAX_BLOCK_SIZE_CURRENT = 2000000 := rfl
  omega

theorem start : Selects H c pool vtx [] (.start vtx) where
  lists := .start
  within := ⟨by simp, nodup_nil, le_max_left _ _, Nat.zero_le _,
    (by decide : 100 + 0 ≤ MAX_BLOCK_SIGOPS_CURRENT)⟩
  size := rfl
  shielded := rfl
  sigOps := rfl

/-- A shielded entry that passes the test leaves the sum of shielded sizes within the limit. -/
theorem add_shieldedSize_le {n : ℕ} (htx : iter.nTxSize ≤ MAX_BLOCK_SIZE_CURRENT)
    (hn : n ≤ MAX_BLOCK_SHIELDED_TXES_SIZE) (h : iter.isShielded = true →
      (n + iter.nTxSize % 2 ^ 32) % 2 ^ 32 ≤ MAX_BLOCK_SHIELDED_TXES_SIZE) :
    n + iter.shieldedSize ≤ MAX_BLOCK_SHIELDED_TXES_SIZE := by
  have hsz : MAX_BLOCK_SIZE_CURRENT = 2000000 := rfl
  have hsh : MAX_BLOCK_SHIELDED_TXES_SIZE = 750000 := rfl
  unfold CTxMemPoolEntry.shieldedSize
  split
  · next his =>
    have hsum := h his
    omega
  · exact hn

theorem nSizeShielded_addToBlock
    (h : s.nSizeShielded + iter.shieldedSize ≤ MAX_BLOCK_SHIELDED_TXES_SIZE) :
    (s.addToBlock H iter).nSizeShielded = s.nSizeShielded + iter.shieldedSize := by
  have hsh : MAX_BLOCK_SHIELDED_TXES_SIZE = 750000 := rfl
  unfold CTxMemPoolEntry.shieldedSize BlockAssembler.addToBlock at *
  dsimp only
  split at h
  · next his =>
    rw [if_pos his, if_pos his, Nat.mod_eq_of_lt (by omega)]
  · next hnot => rw [if_neg hnot, if_neg hnot, Nat.add_zero]

/-- **One entry.** What passes the test and is added keeps the counters right and within the
limits, which no number on the way wraps at. -/
theorem addToBlock (h : Selects H c pool vtx added s) (hmodest : pool.Modest)
    (hiter : iter ∈ pool.entries) (hnew : s.contains H iter = false)
    (hfits : (s.testForBlock c iter).1 = true) :
    Selects H c pool vtx (added ++ [iter]) (s.addToBlock H iter) := by
  -- the test compares remainders modulo `2 ^ 32`, which are the numbers themselves here
  obtain ⟨-, hsize, hshielded, hsigOps⟩ := of_testForBlock hfits
  obtain ⟨htx, hops⟩ := hmodest iter hiter
  have hlists := h.lists.addToBlock hiter hnew
  have hmax := nBlockMaxSize_le c
  have hsz : MAX_BLOCK_SIZE_CURRENT = 2000000 := rfl
  have hso : MAX_BLOCK_SIGOPS_CURRENT = 40000 := rfl
  have hsigOps' := h.within.sigOps
  have hsize' := h.within.size
  rw [h.size] at hsize
  rw [h.sigOps] at hsigOps
  have hsum := add_shieldedSize_le htx (h.shielded.trans_le h.within.shielded) hshielded
  refine ⟨hlists, ⟨hlists.entries, hlists.different, ?_, ?_, ?_⟩, ?_, ?_, ?_⟩
  all_goals simp only [map_append, sum_append, map_cons, map_nil, sum_cons, sum_nil]
  · omega
  · rwa [h.shielded] at hsum
  · omega
  · simp only [BlockAssembler.addToBlock, h.size]
    omega
  · rw [nSizeShielded_addToBlock hsum, h.shielded]
    rfl
  · simp only [BlockAssembler.addToBlock, h.sigOps]
    omega

end BlockAssembler.Selects

/-! ## The block that is built -/

theorem map_modifyHead_of_kept {α β : Type*} {f : α → β} {g : α → α} (h : ∀ a, f (g a) = f a)
    (l : List α) : (l.modifyHead g).map f = l.map f := by
  cases l with
  | nil => rfl
  | cons a l => simp [h]

/-- **The fees do not show** in what reads only the scripts of the outputs. -/
theorem map_payFees {β : Type*} {f : CTransaction → β} {nFees : ℤ}
    (h : ∀ tx vout, vout.map (·.scriptPubKey) = tx.vout.map (·.scriptPubKey) →
      f { tx with vout := vout } = f tx) : (payFees nFees vtx).map f = vtx.map f := by
  refine map_modifyHead_of_kept (fun tx => ?_) vtx
  refine h tx _ (map_modifyHead_of_kept (fun out => ?_) tx.vout)
  rfl

theorem length_serialize_vout (vout : List CTxOut) :
    (vectorBytes CTxOut.serialize vout).length =
      (compactSize (vout.map (·.scriptPubKey)).length).length +
        ((vout.map (·.scriptPubKey)).map fun script => 8 + (varBytes script).length).sum := by
  rw [vectorBytes]
  simp [CTxOut.serialize, intBytes, Function.comp_def]

theorem getTotalSize_of_scripts (tx : CTransaction) (vout : List CTxOut)
    (h : vout.map (·.scriptPubKey) = tx.vout.map (·.scriptPubKey)) :
    CTransaction.getTotalSize { tx with vout := vout } = tx.getTotalSize := by
  have hlen : (vectorBytes CTxOut.serialize vout).length =
      (vectorBytes CTxOut.serialize tx.vout).length := by
    rw [length_serialize_vout, length_serialize_vout, h]
  simp only [CTransaction.getTotalSize, CTransaction.serialize, length_append, hlen]
  rfl

theorem getLegacySigOpCount_of_scripts (tx : CTransaction) (vout : List CTxOut)
    (h : vout.map (·.scriptPubKey) = tx.vout.map (·.scriptPubKey)) :
    getLegacySigOpCount { tx with vout := vout } = getLegacySigOpCount tx := by
  have hcount := congrArg (map fun script => CScript.getSigOpCount script false) h
  rw [map_map, map_map] at hcount
  exact congrArg (fun l : List ℕ => _ + l.sum) hcount

theorem isProofOfStake_payFees (header : CBlock) (vtx : List CTransaction) (nFees : ℤ) :
    (header.withTxs (payFees nFees vtx)).isProofOfStake = (header.withTxs vtx).isProofOfStake := by
  match vtx with
  | [] => rfl
  | [_] => rfl
  | _ :: _ :: _ => rfl

/-- The limits read four numbers of a block. -/
theorem CBlock.WithinLimits.of_eq {a b : CBlock} (h : a.WithinLimits)
    (hcount : b.vtx.length = a.vtx.length) (hsize : b.serialize.length = a.serialize.length)
    (hshielded : getTotalShieldedTxSize b = getTotalShieldedTxSize a)
    (hsigops : b.vtx.map getLegacySigOpCount = a.vtx.map getLegacySigOpCount) : b.WithinLimits where
  count := hcount.trans_le h.count
  size := hsize.trans_le h.size
  shielded hbig := hshielded.trans_le (h.shielded (hsize ▸ hbig))
  sigOps := (congrArg sum hsigops).trans_le h.sigOps

theorem withinLimits_payFees {header : CBlock} {nFees : ℤ}
    (h : (header.withTxs vtx).WithinLimits) :
    (header.withTxs (payFees nFees vtx)).WithinLimits := by
  have hlength : (payFees nFees vtx).length = vtx.length := length_modifyHead
  have hsizes : (payFees nFees vtx).map (·.getTotalSize) = vtx.map (·.getTotalSize) :=
    map_payFees getTotalSize_of_scripts
  have hsize : (header.withTxs (payFees nFees vtx)).serialize.length =
      (header.withTxs vtx).serialize.length := by
    rw [length_serialize_withTxs, length_serialize_withTxs, hlength, hsizes, isProofOfStake_payFees]
  have hshielded : getTotalShieldedTxSize (header.withTxs (payFees nFees vtx)) =
      getTotalShieldedTxSize (header.withTxs vtx) := by
    rw [getTotalShieldedTxSize_withTxs, getTotalShieldedTxSize_withTxs]
    refine congrArg sum (map_payFees fun tx vout hvout => ?_)
    rw [getTotalSize_of_scripts tx vout hvout]
    rfl
  have hsigops : (payFees nFees vtx).map getLegacySigOpCount = vtx.map getLegacySigOpCount :=
    map_payFees getLegacySigOpCount_of_scripts
  exact h.of_eq hlength hsize hshielded hsigops

/-- No first transaction is shielded. -/
theorem FirstTxs.shielded_eq_zero (params : CChainParams) (nHeight : ℤ) (first : FirstTxs)
    (header : CBlock) : getTotalShieldedTxSize (header.withTxs (first.vtx params nHeight)) = 0 := by
  rw [getTotalShieldedTxSize_withTxs]
  cases first with
  | coinbase scriptPubKeyIn => rfl
  | coinstake tx legacy =>
    have hplain : tx.isShieldedTx = false := by simp [isShieldedTx, legacy]
    simp only [FirstTxs.vtx, map_cons, hplain]
    rfl

/-- The block of a selection is within the limits of `CheckBlock`, where there is room for the
first transactions. -/
theorem PoolSelection.withinLimits {added : List (CTxMemPoolEntry D)} (h : PoolSelection H c pool added)
    {params : CChainParams} {first : FirstTxs} {header : CBlock}
    (hroom : header.serializeHeader.length + 9 +
      ((first.vtx params c.nHeight).map (·.getTotalSize)).sum +
      (varBytes header.vchBlockSig).length + c.nBlockMaxSize ≤ MAX_BLOCK_SIZE_CURRENT + 1000)
    (hsigOps : ((first.vtx params c.nHeight).map getLegacySigOpCount).sum +
      (added.map fun e => getLegacySigOpCount e.tx).sum ≤ MAX_BLOCK_SIGOPS_LEGACY) :
    (header.withTxs (first.vtx params c.nHeight ++ added.map (·.tx))).WithinLimits := by
  have hsize : (header.withTxs (first.vtx params c.nHeight ++ added.map (·.tx))).serialize.length ≤
      MAX_BLOCK_SIZE_CURRENT := by
    have hcount := length_compactSize_le (first.vtx params c.nHeight ++ added.map (·.tx)).length
    have hadded : (added.map fun e => e.tx.getTotalSize).sum = (added.map (·.nTxSize)).sum := rfl
    have hlimit := h.size
    rw [length_serialize_withTxs, map_append, sum_append, map_map]
    simp only [Function.comp_def, hadded]
    split <;> omega
  refine ⟨(length_vtx_le _ _).trans hsize, hsize, fun _ => ?_, ?_⟩
  · have hfirst := first.shielded_eq_zero params c.nHeight header
    rw [getTotalShieldedTxSize_withTxs] at hfirst ⊢
    rw [map_append, sum_append, hfirst, map_map, Nat.zero_add]
    exact h.shielded
  · change ((first.vtx params c.nHeight ++ added.map (·.tx)).map getLegacySigOpCount).sum ≤ _
    rwa [map_append, sum_append, map_map]

namespace AssemblerSample

/-- Numbers in place of floating point. -/
def doubles : DoubleOps ℤ where
  ofInt n := n
  add a b := a + b
  mul a b := a * b
  div a b := a.tdiv b
  eq a b := a == b
  lt a b := decide (a < b)

/-- A transaction with 400 times `OP_CHECKMULTISIG` in its output, each of which counts for
twenty operations. -/
def multisigTx (n : UInt32) : CTransaction :=
  .plain [⟨⟨BaseUint.ofNat 1, n⟩, [], 0xffffffff⟩]
    [⟨COIN, List.replicate 400 Opcode.OP_CHECKMULTISIG⟩]

theorem getLegacySigOpCount_multisigTx (n : UInt32) : getLegacySigOpCount (multisigTx n) = 8000 := by
  have hscript : CScript.getSigOpCount (replicate 400 Opcode.OP_CHECKMULTISIG) false = 8000 := by
    decide +kernel
  simp only [getLegacySigOpCount, multisigTx, plain, map_cons, map_nil, sum_cons, sum_nil, hscript]
  rfl

/-- Its entry. -/
def entry (n : UInt32) : CTxMemPoolEntry ℤ where
  tx := multisigTx n
  nFee := 100000
  feeDelta := 0
  sigOpCount := 8000
  entryPriority := 0
  entryHeight := 1000
  inChainInputValue := 2 * COIN
  legacy_le_sigOpCount := (getLegacySigOpCount_multisigTx n).le

/-- Entries without parents or children. -/
def poolOf (l : List UInt32) : TxMemPool ℤ :=
  { TxMemPool.empty 0 with
    mapTx := l.foldr (fun n m => m.insert ((entry n).hash sampleEnv.toHashing)
      (.ofEntry (entry n) 0 false)) ∅
    mapLinks := l.foldr (fun n m => m.insert ((entry n).hash sampleEnv.toHashing) .empty) ∅ }

/-- The default options, at height 1001. -/
def context : AssemblerContext where
  options := {}
  nHeight := 1001
  fSaplingMaintenance := false
  nAdjustedTime := 100000
  minRelayTxFee := ⟨10000⟩

/-- The header of a block of version 8. -/
def header : CBlock :=
  ⟨8, BaseUint.ofNat 5, BaseUint.zero, 100000, 0x1e0fffff, 0, BaseUint.zero, [], [], false⟩

end AssemblerSample

open AssemblerSample in
/-- The same block pays two fees to its coinbase. -/
theorem createNewBlock_lists_two :
    ∃ s added, Lists sampleEnv (poolOf [0, 1]) [createCoinbaseTx mainParams [Opcode.OP_1] 1001]
      added s ∧ (s.template false header).vTxFees = [-200000, 100000, 100000] := by
  obtain ⟨template, htemplate, hfees⟩ : ∃ t, createNewBlock doubles sampleEnv context
      (poolOf [0, 1]) mainParams (.coinbase [Opcode.OP_1]) header = .ok t ∧
        t.vTxFees = [-200000, 100000, 100000] := by
    decide +kernel
  obtain ⟨s, added, hlists, rfl⟩ := createNewBlock_lists _ _ _ htemplate
  exact ⟨s, added, hlists, hfees⟩

end Passion
