import Passion.Common.Traversal
import Passion.Primitives.Transaction
import Passion.Common.Runs

/-!
# Confirmations of wallet transactions

The part of `wallet/wallet.cpp` that keeps, for each transaction of the wallet, the block that
confirms it or conflicts with it: `AddToWallet`, `MarkConflicted`, `BlockConnected` and
`BlockDisconnected`, and the depth that `GetDepthInMainChain` reads from it.

Left out: times, labels and caches of a transaction, the database, the notes of shielded
transactions, and the keys of the pool that a transaction uses. Which transactions involve the
wallet is a parameter.
-/

namespace Passion

/-- A block of the active chain. -/
structure ChainBlock where
  hash : Uint256
  vtx : List CTransaction

/-- `CWalletTx::Status`. -/
inductive TxStatus
  | unconfirmed
  | confirmed
  | conflicted
  | abandoned
  deriving DecidableEq

/-- `CWalletTx::Confirmation`. -/
structure Confirmation where
  status : TxStatus
  block_height : ℤ
  hashBlock : Uint256
  nIndex : ℕ
  deriving DecidableEq

/-- The confirmation of a transaction that is in no block. -/
def Confirmation.none : Confirmation := ⟨.unconfirmed, 0, BaseUint.zero, 0⟩

/-- `CWalletTx`. -/
structure CWalletTx where
  tx : CTransaction
  m_confirm : Confirmation
  deriving DecidableEq

/-- The transactions of `CWallet`, and the block it has processed last. -/
structure WalletTxs where
  mapWallet : AList fun _ : Uint256 => CWalletTx
  /-- `mapTxSpends`: the outpoints that transactions of the wallet spend. -/
  mapTxSpends : List (COutPoint × Uint256)
  m_last_block_processed : Uint256
  m_last_block_processed_height : ℤ

/-- What the wallet uses of the rest of the program. -/
structure WalletEnv extends Hashing where
  /-- `IsMine`, `IsFromMe`, or notes of the wallet among the outputs. -/
  involvesMe : WalletTxs → CTransaction → Bool

instance : CoeOut WalletEnv Hashing := ⟨WalletEnv.toHashing⟩

namespace WalletTxs

variable (E : WalletEnv) (w : WalletTxs)

/-- `CWalletTx::GetDepthInMainChain`. -/
def getDepthInMainChain (confirm : Confirmation) : Result ℤ :=
  if confirm.status = .unconfirmed ∨ confirm.status = .abandoned then .ok 0
  else if w.m_last_block_processed_height < 0 then
    .error (.assertion "m_last_block_processed_height >= 0")
  else .ok ((w.m_last_block_processed_height - confirm.block_height + 1) *
    (if confirm.status = .conflicted then -1 else 1))

/-- The confirmation of a transaction is replaced. -/
def setConfirm (hash : Uint256) (wtx : CWalletTx) (confirm : Confirmation) : WalletTxs :=
  { w with mapWallet := w.mapWallet.insert hash { wtx with m_confirm := confirm } }

/-! ## Conflicts -/

/-- The transactions of the wallet that spend an output of `hash`. -/
def spendersOf (hash : Uint256) : Finset Uint256 :=
  ((w.mapTxSpends.filter fun e => e.1.hash = hash).map Prod.snd).toFinset

/-- The body of the loop of `MarkConflicted`: what it has done and the wallet, with the
transactions that are to be visited. -/
def markConflictedVisit (hashBlock : Uint256) (conflicting_height : ℤ) (now : Uint256)
    (s : Finset Uint256 × WalletTxs) : Result (Finset Uint256 × Finset Uint256 × WalletTxs) :=
  let conflictconfirms := (s.2.m_last_block_processed_height - conflicting_height + 1) * -1
  let done := insert now s.1
  match s.2.mapWallet.lookup now with
  | none => .error (.assertion "it != mapWallet.end()")
  | some wtx =>
    (s.2.getDepthInMainChain wtx.m_confirm).bind fun currentconfirm =>
      if conflictconfirms < currentconfirm then
        .ok (s.2.spendersOf now \ done, done,
          s.2.setConfirm now wtx ⟨.conflicted, conflicting_height, hashBlock, 0⟩)
      else .ok (∅, done, s.2)

/-- `MarkConflicted`. A transaction is visited once, so there are at most as many turns as
transactions. -/
def markConflicted (hashBlock : Uint256) (conflicting_height : ℤ) (hashTx : Uint256) :
    Result WalletTxs :=
  if (w.m_last_block_processed_height - conflicting_height + 1) * -1 ≥ 0 then .ok w
  else (Traversal.drain (markConflictedVisit hashBlock conflicting_height)
    (.error "MarkConflicted does not return") w.mapWallet.keys.length {hashTx} (∅, w)).map Prod.snd

/-- The loop of `AddToWalletIfInvolvingMe` over the transactions of the wallet that spend an
outpoint, for a transaction `hash` of a block that spends it too. -/
def markSpenders (confirm : Confirmation) (hash : Uint256) (prevout : COutPoint) :
    Result WalletTxs :=
  ((w.mapTxSpends.filter fun e => e.1 = prevout).map Prod.snd).foldlM (fun w spender =>
    if spender ≠ hash then w.markConflicted confirm.hashBlock confirm.block_height spender
    else .ok w) w

/-- The loop of `AddToWalletIfInvolvingMe` over the inputs of a transaction. -/
def markConflicts (confirm : Confirmation) (tx : CTransaction) : Result WalletTxs :=
  if confirm.hashBlock.isNull || tx.isCoinBase then .ok w
  else tx.vin.foldlM (fun w txin =>
    w.markSpenders confirm (tx.getHash E.toHashing) txin.prevout) w

/-! ## Adding transactions -/

/-- `AddToSpends`. -/
def addToSpends (tx : CTransaction) : WalletTxs :=
  if tx.isCoinBase then w
  else
    let spends := tx.vin.map fun txin => (txin.prevout, tx.getHash E.toHashing)
    { w with mapTxSpends := w.mapTxSpends ++ spends }

/-- `AddToWallet`. -/
def addToWallet (wtxIn : CWalletTx) : Result WalletTxs :=
  let hash := wtxIn.tx.getHash E.toHashing
  match w.mapWallet.lookup hash with
  | none => .ok ({ w with mapWallet := w.mapWallet.insert hash wtxIn }.addToSpends E wtxIn.tx)
  | some wtx =>
    if wtxIn.m_confirm.status ≠ wtx.m_confirm.status then
      .ok (w.setConfirm hash wtx wtxIn.m_confirm)
    else if wtx.m_confirm.nIndex ≠ wtxIn.m_confirm.nIndex then
      .error (.assertion "wtx.m_confirm.nIndex == wtxIn.m_confirm.nIndex")
    else if wtx.m_confirm.hashBlock ≠ wtxIn.m_confirm.hashBlock then
      .error (.assertion "wtx.m_confirm.hashBlock == wtxIn.m_confirm.hashBlock")
    else if wtx.m_confirm.block_height ≠ wtxIn.m_confirm.block_height then
      .error (.assertion "wtx.m_confirm.block_height == wtxIn.m_confirm.block_height")
    else .ok w

/-- `AddToWalletIfInvolvingMe`, as `SyncTransaction` calls it. -/
def syncTransaction (tx : CTransaction) (confirm : Confirmation) : Result WalletTxs :=
  (w.markConflicts E confirm tx).bind fun w =>
    if (w.mapWallet.lookup (tx.getHash E.toHashing)).isSome || E.involvesMe w tx then
      w.addToWallet E ⟨tx, confirm⟩
    else .ok w

/-- The loop of `BlockConnected`, from an index on. -/
def syncConnected (hash : Uint256) (nHeight : ℤ) : ℕ → List CTransaction → WalletTxs →
    Result WalletTxs
  | _, [], w => .ok w
  | index, tx :: vtx, w =>
    (w.syncTransaction E tx ⟨.confirmed, nHeight, hash, index⟩).bind
      (syncConnected hash nHeight (index + 1) vtx)

/-- `BlockConnected`. -/
def blockConnected (hash : Uint256) (nHeight : ℤ) (vtx : List CTransaction) : Result WalletTxs :=
  syncConnected E hash nHeight 0 vtx
    { w with m_last_block_processed := hash, m_last_block_processed_height := nHeight }

/-- `BlockDisconnected`. -/
def blockDisconnected (blockHash : Uint256) (nBlockHeight : ℤ) (vtx : List CTransaction) :
    Result WalletTxs :=
  vtx.foldlM (fun w tx => w.syncTransaction E tx .none)
    { w with
      m_last_block_processed := blockHash
      m_last_block_processed_height := nBlockHeight - 1 }

end WalletTxs

/-! ## What the wallet records of a block

The transactions of a block are synced one after the other. Of what they conflict with, only
transactions that are not connected are marked; a transaction of the block is recorded as confirmed
at its height, and as unconfirmed again when the block is disconnected.
-/

open List AList CTransaction

/-- The ids of the transactions of a chain. -/
def chainIds (H : Hashing) (chain : List ChainBlock) : List Uint256 :=
  (chain.flatMap ChainBlock.vtx).map (CTransaction.getHash H)

/-- **A chain whose blocks were connected**: no id occurs twice, what a transaction spends was
made by one of the chain, and no outpoint is spent twice. -/
structure ValidChain (H : Hashing) (chain : List ChainBlock) : Prop where
  ids : (chainIds H chain).Nodup
  inputs : ∀ tx ∈ chain.flatMap ChainBlock.vtx, tx.isCoinBase = false →
    ∀ txin ∈ tx.vin, txin.prevout.hash ∈ chainIds H chain
  spends : ∀ tx ∈ chain.flatMap ChainBlock.vtx, ∀ tx' ∈ chain.flatMap ChainBlock.vtx,
    tx.isCoinBase = false → tx'.isCoinBase = false →
    ∀ txin ∈ tx.vin, ∀ txin' ∈ tx'.vin, txin.prevout = txin'.prevout → tx = tx'

variable {E : WalletEnv} {w w' : WalletTxs} {S : Set Uint256} {id : Uint256}

namespace WalletTxs

/-! ## What is marked as conflicted -/

/-- **A wallet that differs in conflicts only**: some transactions of `S` are marked as
conflicted by a block at a height. -/
structure Remarked (S : Set Uint256) (height : ℤ) (w w' : WalletTxs) : Prop where
  spends : w'.mapTxSpends = w.mapTxSpends
  last : w'.m_last_block_processed_height = w.m_last_block_processed_height
  keys : ∀ id, id ∈ w'.mapWallet ↔ id ∈ w.mapWallet
  lookup : ∀ id, w'.mapWallet.lookup id = w.mapWallet.lookup id ∨ id ∈ S ∧
    ∃ wtx confirm, w.mapWallet.lookup id = some wtx ∧
      w'.mapWallet.lookup id = some { wtx with m_confirm := confirm } ∧
      confirm.status = .conflicted ∧ confirm.block_height = height

namespace Remarked

variable {height : ℤ}

theorem refl (w : WalletTxs) : Remarked S height w w :=
  ⟨rfl, rfl, fun _ => Iff.rfl, fun _ => .inl rfl⟩

theorem trans (h : Remarked S height w w') (h' : Remarked S height w' w'') :
    Remarked S height w w'' where
  spends := h'.spends.trans h.spends
  last := h'.last.trans h.last
  keys id := (h'.keys id).trans (h.keys id)
  lookup id := by
    rcases h'.lookup id with hsame | ⟨hS, wtx, confirm, hw', hw'', hconf⟩
    · rw [hsame]
      exact h.lookup id
    · refine .inr ⟨hS, ?_⟩
      rcases h.lookup id with hsame | ⟨-, wtx₀, confirm₀, hw, hlook, -⟩
      · exact ⟨wtx, confirm, hsame ▸ hw', hw'', hconf⟩
      · rw [hlook] at hw'
        cases hw'
        exact ⟨wtx₀, confirm, hw, hw'', hconf⟩

theorem setConfirm {wtx : CWalletTx} {confirm : Confirmation} (hS : id ∈ S)
    (hlook : w.mapWallet.lookup id = some wtx) (hstatus : confirm.status = .conflicted)
    (hheight : confirm.block_height = height) :
    Remarked S height w (w.setConfirm id wtx confirm) where
  spends := rfl
  last := rfl
  keys id' := by
    have hmem : id ∈ w.mapWallet := lookup_isSome.mp (by simp [hlook])
    by_cases h : id' = id
    · subst h
      simp [setConfirm, hmem]
    · simp [WalletTxs.setConfirm, h]
  lookup id' := by
    by_cases h : id' = id
    · subst h
      exact .inr ⟨hS, wtx, confirm, hlook, by simp [setConfirm], hstatus, hheight⟩
    · exact .inl (by simp [WalletTxs.setConfirm, h])

end Remarked

/-- **A set of transactions that conflicts spread in**: with a transaction, those that spend its
outputs, which are in the wallet. -/
structure SpreadsIn (w : WalletTxs) (S : Set Uint256) : Prop where
  last : 0 ≤ w.m_last_block_processed_height
  known : ∀ e ∈ w.mapTxSpends, e.2 ∈ w.mapWallet
  spread : ∀ e ∈ w.mapTxSpends, e.1.hash ∈ S → e.2 ∈ S

theorem Remarked.spreadsIn {height : ℤ} (h : Remarked S height w w') (hS : w.SpreadsIn S) :
    w'.SpreadsIn S where
  last := h.last ▸ hS.last
  known e he := (h.keys e.2).mpr (hS.known e (h.spends ▸ he))
  spread e he := hS.spread e (h.spends ▸ he)

/-- The depth of a confirmation, as a number. -/
def depth (w : WalletTxs) (confirm : Confirmation) : ℤ :=
  match confirm.status with
  | .confirmed => w.m_last_block_processed_height - confirm.block_height + 1
  | .conflicted => -(w.m_last_block_processed_height - confirm.block_height + 1)
  | _ => 0

theorem getDepthInMainChain_eq (hlast : 0 ≤ w.m_last_block_processed_height)
    (confirm : Confirmation) : w.getDepthInMainChain confirm = .ok (w.depth confirm) := by
  unfold getDepthInMainChain depth
  cases confirm.status <;> simp [not_lt.mpr hlast]

/-- **The invariant of the loop of `MarkConflicted`**: what is on stage was not visited, is in
the set, and in the wallet. -/
structure Marking (w : WalletTxs) (S : Set Uint256) (height : ℤ) (stage : Finset Uint256)
    (s : Finset Uint256 × WalletTxs) : Prop where
  fresh : Disjoint stage s.1
  stage : ∀ x ∈ stage, x ∈ S ∧ x ∈ w.mapWallet
  remarked : Remarked S height w s.2

/-- One turn of the loop. -/
theorem Marking.visit {height : ℤ} {hashBlock now : Uint256} {stage : Finset Uint256}
    {s : Finset Uint256 × WalletTxs} (h : w.Marking S height stage s)
    (hS : w.SpreadsIn S) (hnow : now ∈ stage) :
    ∃ new v, markConflictedVisit hashBlock height now s = .ok (new, insert now s.1, v) ∧
      w.Marking S height (stage.erase now ∪ new) (insert now s.1, v) := by
  obtain ⟨hnowS, hnowW⟩ := h.stage now hnow
  obtain ⟨wtx, hwtx⟩ := Option.isSome_iff_exists.mp
    (lookup_isSome.mpr ((h.remarked.keys now).mpr hnowW))
  have hkeep : Disjoint (stage.erase now) (insert now s.1) := by
    rw [Finset.disjoint_insert_right]
    exact ⟨Finset.notMem_erase now stage, h.fresh.mono_left (Finset.erase_subset now stage)⟩
  have hold : ∀ x ∈ stage.erase now, x ∈ S ∧ x ∈ w.mapWallet :=
    fun x hx => h.stage x (Finset.mem_of_mem_erase hx)
  simp only [markConflictedVisit, hwtx, Except.ok_bind,
    getDepthInMainChain_eq (h.remarked.spreadsIn hS).last]
  split
  · refine ⟨_, _, rfl, ⟨?_, fun x hx => ?_, h.remarked.trans (.setConfirm hnowS hwtx rfl rfl)⟩⟩
    · exact Finset.disjoint_union_left.mpr ⟨hkeep, Finset.sdiff_disjoint⟩
    · rcases Finset.mem_union.mp hx with hx | hx
      · exact hold x hx
      · obtain ⟨hx, -⟩ := Finset.mem_sdiff.mp hx
        simp only [spendersOf, mem_toFinset, mem_map, mem_filter, h.remarked.spends] at hx
        obtain ⟨e, ⟨he, hhash⟩, rfl⟩ := hx
        exact ⟨hS.spread e he (by rw [of_decide_eq_true hhash]; exact hnowS), hS.known e he⟩
  · refine ⟨∅, s.2, rfl, ⟨by rwa [Finset.union_empty], ?_, h.remarked⟩⟩
    rwa [Finset.union_empty]

/-- **`MarkConflicted` returns**, and marks transactions of a set that conflicts spread in. -/
theorem exists_markConflicted (hashBlock : Uint256) (height : ℤ) (hS : w.SpreadsIn S)
    (hid : id ∈ S) (hmem : id ∈ w.mapWallet) :
    ∃ w', w.markConflicted hashBlock height id = .ok w' ∧ Remarked S height w w' := by
  unfold markConflicted
  split
  · exact ⟨w, rfl, .refl w⟩
  · have hvisit : ∀ now stage s, now ∈ stage → w.Marking S height stage s → ∃ new s',
        markConflictedVisit hashBlock height now s = .ok (new, s') ∧
          w.Marking S height (stage.erase now ∪ new) s' ∧
          (w.mapWallet.keys.toFinset \ s'.1).card < (w.mapWallet.keys.toFinset \ s.1).card := by
      intro now stage s hnow h
      obtain ⟨new, v, hok, hnext⟩ := h.visit hS hnow
      refine ⟨new, _, hok, hnext, Traversal.card_sdiff_insert_lt ?_ ?_⟩
      · exact mem_toFinset.mpr (mem_keys.mp (h.stage now hnow).2)
      · exact Finset.disjoint_left.mp h.fresh hnow
    have hstart : w.Marking S height {id} (∅, w) :=
      ⟨by simp, by simpa using ⟨hid, hmem⟩, .refl w⟩
    have hturns : (w.mapWallet.keys.toFinset \ (∅)).card ≤ w.mapWallet.keys.length := by
      exact toFinset_card_le _
    obtain ⟨⟨done, w'⟩, hrun, hend⟩ := Traversal.exists_drain (w.Marking S height)
      (fun _ s => (w.mapWallet.keys.toFinset \ s.1).card) hvisit hturns hstart
    exact ⟨w', by rw [hrun]; rfl, hend.remarked⟩

/-- **What a transaction of a block conflicts with is marked.** -/
theorem exists_markConflicts (confirm : Confirmation) (tx : CTransaction) (hS : w.SpreadsIn S)
    (hdirect : tx.isCoinBase = false → ∀ txin ∈ tx.vin, ∀ e ∈ w.mapTxSpends,
      e.1 = txin.prevout → e.2 ≠ tx.getHash E → e.2 ∈ S) :
    ∃ w', w.markConflicts E confirm tx = .ok w' ∧ Remarked S confirm.block_height w w' := by
  unfold markConflicts
  split
  · exact ⟨w, rfl, .refl w⟩
  · next hmarks =>
    have hbase : tx.isCoinBase = false := by
      simp only [Bool.or_eq_true, not_or, Bool.not_eq_true] at hmarks
      exact hmarks.2
    refine Run.exists_after (Remarked S confirm.block_height w) (.refl w) ?_
    intro _ txin _ u hvin _ hu
    have htxin : txin ∈ tx.vin := by simp [hvin]
    obtain ⟨v, hv, huv⟩ : ∃ v, u.markSpenders confirm (tx.getHash E) txin.prevout =
        .ok v ∧ Remarked S confirm.block_height u v := by
      refine Run.exists_after (Remarked S confirm.block_height u) (.refl u) ?_
      intro _ spender _ v hspenders _ hv
      have hmem : spender ∈ (u.mapTxSpends.filter fun e => e.1 = txin.prevout).map Prod.snd := by
        simp [hspenders]
      simp only [mem_map, mem_filter, decide_eq_true_eq] at hmem
      obtain ⟨e, ⟨he, hprev⟩, rfl⟩ := hmem
      split
      · next hne =>
        have huv := hu.trans hv
        obtain ⟨v', hv', hvv'⟩ := exists_markConflicted confirm.hashBlock confirm.block_height
          (huv.spreadsIn hS) (hdirect hbase txin htxin e (hu.spends ▸ he) hprev hne)
          ((huv.keys e.2).mpr (hS.known e (hu.spends ▸ he)))
        exact ⟨v', hv', hv.trans hvv'⟩
      · exact ⟨v, rfl, hv⟩
    exact ⟨v, hv, hu.trans huv⟩

/-! ## What the wallet records -/

/-- **The wallet is sound** for the transactions that are connected, each at a height: exactly
these are recorded as confirmed, with their height. -/
structure Sound (E : WalletEnv) (T : Set CTransaction) (C : Uint256 → ℤ → Prop) (w : WalletTxs) :
    Prop where
  keyed : ∀ id wtx, w.mapWallet.lookup id = some wtx →
    wtx.tx.getHash E.toHashing = id ∧ wtx.tx ∈ T
  connected : ∀ id wtx h, w.mapWallet.lookup id = some wtx → C id h →
    wtx.m_confirm.status = .confirmed
  confirmed : ∀ id wtx, w.mapWallet.lookup id = some wtx → wtx.m_confirm.status = .confirmed →
    C id wtx.m_confirm.block_height
  spends : ∀ e ∈ w.mapTxSpends, ∃ wtx, w.mapWallet.lookup e.2 = some wtx ∧
    wtx.tx.isCoinBase = false ∧ ∃ txin ∈ wtx.tx.vin, txin.prevout = e.1

end WalletTxs

variable {T : Set CTransaction} {C C' : Uint256 → ℤ → Prop}

namespace CWalletTx

/-- What a sound wallet records of one transaction. -/
structure Sound (E : WalletEnv) (T : Set CTransaction) (C : Uint256 → ℤ → Prop) (id : Uint256)
    (wtx : CWalletTx) : Prop where
  keyed : wtx.tx.getHash E = id ∧ wtx.tx ∈ T
  connected : ∀ {h}, C id h → wtx.m_confirm.status = .confirmed
  confirmed : wtx.m_confirm.status = .confirmed → C id wtx.m_confirm.block_height

theorem Sound.congr {wtx : CWalletTx} (h : wtx.Sound E T C id) (hC : ∀ k, C' id k ↔ C id k) :
    wtx.Sound E T C' id :=
  ⟨h.keyed, fun hk => h.connected ((hC _).mp hk), fun hstatus => (hC _).mpr (h.confirmed hstatus)⟩

/-- The transaction spends an outpoint. -/
def Spends (wtx : CWalletTx) (prevout : COutPoint) : Prop :=
  wtx.tx.isCoinBase = false ∧ ∃ txin ∈ wtx.tx.vin, txin.prevout = prevout

end CWalletTx

namespace WalletTxs

/-- The conflicted transactions of the wallet were marked at a height of at most `bound`. -/
def ConflictsBelow (bound : ℤ) (w : WalletTxs) : Prop :=
  ∀ id wtx, w.mapWallet.lookup id = some wtx → wtx.m_confirm.status = .conflicted →
    wtx.m_confirm.block_height ≤ bound

theorem addToSpends_mapWallet (tx : CTransaction) :
    (w.addToSpends E tx).mapWallet = w.mapWallet := by
  unfold addToSpends
  split <;> rfl

theorem addToSpends_last (tx : CTransaction) :
    (w.addToSpends E tx).m_last_block_processed_height = w.m_last_block_processed_height := by
  unfold addToSpends
  split <;> rfl

theorem mem_addToSpends {tx : CTransaction} {e : COutPoint × Uint256}
    (he : e ∈ (w.addToSpends E tx).mapTxSpends) : e ∈ w.mapTxSpends ∨
      e.2 = tx.getHash E ∧ tx.isCoinBase = false ∧ ∃ txin ∈ tx.vin, txin.prevout = e.1 := by
  unfold addToSpends at he
  split at he
  · exact .inl he
  · next hbase =>
    refine (mem_append.mp he).imp_right fun he => ?_
    obtain ⟨txin, htxin, rfl⟩ := mem_map.mp he
    exact ⟨rfl, by simpa using hbase, txin, htxin, rfl⟩

/-- **One transaction of the wallet has changed**: what is there of it has the confirmation. -/
structure Recorded (E : WalletEnv) (T : Set CTransaction) (id : Uint256) (confirm : Confirmation)
    (w w' : WalletTxs) : Prop where
  last : w'.m_last_block_processed_height = w.m_last_block_processed_height
  others : ∀ id', id' ≠ id → w'.mapWallet.lookup id' = w.mapWallet.lookup id'
  self : ∀ wtx, w'.mapWallet.lookup id = some wtx →
    (wtx.tx.getHash E = id ∧ wtx.tx ∈ T) ∧ wtx.m_confirm = confirm
  spends : ∀ e ∈ w'.mapTxSpends, if e.2 = id then
    ∃ wtx, w'.mapWallet.lookup id = some wtx ∧ wtx.Spends e.1 else e ∈ w.mapTxSpends

namespace Sound

/-- The wallet is sound if it is for each of its transactions. -/
theorem of_entries (hentry : ∀ {id wtx}, w.mapWallet.lookup id = some wtx → wtx.Sound E T C id)
    (hspends : ∀ e ∈ w.mapTxSpends, ∃ wtx, w.mapWallet.lookup e.2 = some wtx ∧ wtx.Spends e.1) :
    w.Sound E T C :=
  ⟨fun _ _ h => (hentry h).keyed, fun _ _ _ h => (hentry h).connected,
    fun _ _ h => (hentry h).confirmed, hspends⟩

section

variable (h : w.Sound E T C)

include h

theorem entry {wtx : CWalletTx} (hlook : w.mapWallet.lookup id = some wtx) : wtx.Sound E T C id :=
  ⟨h.keyed _ _ hlook, (h.connected _ _ _ hlook), h.confirmed _ _ hlook⟩

theorem congr (hC : ∀ id h, C id h ↔ C' id h) : w.Sound E T C' :=
  of_entries (fun hlook => (h.entry hlook).congr fun k => (hC _ k).symm) h.spends

theorem withLast (hash : Uint256) (last : ℤ) :
    Sound E T C
    { w with m_last_block_processed := hash, m_last_block_processed_height := last } :=
  ⟨h.keyed, h.connected, h.confirmed, h.spends⟩

/-- Marking transactions that are not connected. -/
theorem remarked {height : ℤ} (hr : Remarked S height w w') (hS : ∀ id ∈ S, ∀ k, ¬ C id k) :
    w'.Sound E T C := by
  refine of_entries (fun {id wtx} hlook => ?_) (fun e he => ?_)
  · rcases hr.lookup id with hsame | ⟨hid, wtx₀, confirm, hw, hw', hconf, -⟩
    · exact h.entry (hsame ▸ hlook)
    · rw [hw'] at hlook
      cases hlook
      exact ⟨(h.entry hw).keyed, fun hk => absurd hk (hS id hid _),
        fun hstatus => by simp [hconf] at hstatus⟩
  · obtain ⟨wtx, hwtx, hspent⟩ := h.spends e (hr.spends ▸ he)
    rcases hr.lookup e.2 with hsame | ⟨-, wtx₀, confirm, hw, hw', -⟩
    · exact ⟨wtx, hsame.trans hwtx, hspent⟩
    · rw [hw, Option.some.injEq] at hwtx
      subst hwtx
      exact ⟨_, hw', hspent⟩

/-- One transaction of the wallet has changed, as the chain has. -/
theorem recorded {confirm : Confirmation} (hr : Recorded E T id confirm w w')
    (hothers : ∀ id', id' ≠ id → ∀ k, C' id' k ↔ C id' k)
    (hconnected : ∀ k, C' id k → confirm.status = .confirmed)
    (hconfirmed : confirm.status = .confirmed → C' id confirm.block_height) : w'.Sound E T C' := by
  refine of_entries (fun {id' wtx} hlook => ?_) (fun e he => ?_)
  · by_cases hid : id' = id
    · subst hid
      obtain ⟨hkeyed, rfl⟩ := hr.self _ hlook
      exact ⟨hkeyed, hconnected _, hconfirmed⟩
    · exact (h.entry (hr.others id' hid ▸ hlook)).congr (hothers id' hid)
  · have hspent := hr.spends e he
    split at hspent
    · next hid => rwa [hid]
    · next hid =>
      rw [hr.others _ hid]
      exact h.spends e hspent

/-- **A transaction is recorded** with a confirmation of another status than it had. -/
theorem exists_record (tx : CTransaction) (confirm : Confirmation) (hT : tx ∈ T)
    (hchange : ∀ wtx, w.mapWallet.lookup (tx.getHash E) = some wtx →
      confirm.status ≠ wtx.m_confirm.status) :
    ∃ w', (if (w.mapWallet.lookup (tx.getHash E)).isSome || E.involvesMe w tx then
        w.addToWallet E ⟨tx, confirm⟩ else .ok w) = .ok w' ∧
      Recorded E T (tx.getHash E) confirm w w' := by
  cases hlook : w.mapWallet.lookup (tx.getHash E) with
  | some wtx =>
    have hget : (w.setConfirm (tx.getHash E) wtx confirm).mapWallet.lookup
        (tx.getHash E) = some { wtx with m_confirm := confirm } := lookup_insert _
    refine ⟨w.setConfirm (tx.getHash E) wtx confirm, ?_, rfl,
      fun id' hne => lookup_insert_ne hne, fun wtx' hlook' => ?_, fun e he => ?_⟩
    · simp only [addToWallet, hlook, Option.isSome_some, Bool.true_or, if_true]
      rw [if_pos (hchange wtx hlook)]
    · cases hget.symm.trans hlook'
      exact ⟨(h.entry hlook).keyed, rfl⟩
    · split
      · next hid =>
        obtain ⟨wtx', hwtx', hspent⟩ := h.spends e he
        cases hlook.symm.trans (hid ▸ hwtx')
        exact ⟨_, hget, hspent⟩
      · exact he
  | none =>
    have hnone : ∀ e ∈ w.mapTxSpends, e.2 ≠ tx.getHash E := by
      intro e he heq
      obtain ⟨wtx', hwtx', -⟩ := h.spends e he
      rw [heq, hlook] at hwtx'
      cases hwtx'
    by_cases hmine : E.involvesMe w tx = true
    · let v := { w with mapWallet := w.mapWallet.insert (tx.getHash E) ⟨tx, confirm⟩ }
      refine ⟨v.addToSpends E tx, by simp [addToWallet, hlook, hmine, v], addToSpends_last tx,
        ?_, ?_, ?_⟩ <;> rw [addToSpends_mapWallet]
      · exact fun id' hne => lookup_insert_ne hne
      · intro wtx' hlook'
        cases (lookup_insert _).symm.trans hlook'
        exact ⟨⟨rfl, hT⟩, rfl⟩
      · intro e he
        rcases mem_addToSpends he with he | ⟨heq, hspent⟩
        · rwa [if_neg (hnone e he)]
        · rw [if_pos heq]
          exact ⟨_, lookup_insert _, hspent⟩
    · refine ⟨w, by simp [hmine], rfl, fun _ _ => rfl, fun wtx hwtx => ?_, fun e he => ?_⟩
      · rw [hlook] at hwtx
        cases hwtx
      · rwa [if_neg (hnone e he)]

end

/-! ## A block is connected -/

section Connect

variable {full : List ChainBlock} (hT : Set.InjOn (getHash E) T)
  (hvalid : ValidChain E full) (hfull : ∀ tx ∈ full.flatMap ChainBlock.vtx, tx ∈ T)

include hT hvalid hfull

theorem spreadsIn (h : w.Sound E T C) (hlast : 0 ≤ w.m_last_block_processed_height) :
    w.SpreadsIn {id | id ∉ chainIds E full} := by
  refine ⟨hlast, fun e he => ?_, fun e he hparent hmem => ?_⟩
  · obtain ⟨wtx, hwtx, -⟩ := h.spends e he
    exact lookup_isSome.mp (by simp [hwtx])
  · obtain ⟨wtx, hwtx, hbase, txin, htxin, hprev⟩ := h.spends e he
    obtain ⟨hid, hwtxT⟩ := h.keyed _ _ hwtx
    obtain ⟨tx, htx, htxid⟩ := mem_map.mp hmem
    obtain rfl : tx = wtx.tx := hT (hfull tx htx) hwtxT (htxid.trans hid.symm)
    exact hparent (hprev ▸ hvalid.inputs _ htx hbase txin htxin)

/-- **A wallet transaction that spends what a block transaction spends is not connected.** -/
theorem notMem_of_spends (h : w.Sound E T C) {tx : CTransaction}
    (htx : tx ∈ full.flatMap ChainBlock.vtx) (hbase : tx.isCoinBase = false) {txin : CTxIn}
    (htxin : txin ∈ tx.vin) {e : COutPoint × Uint256} (he : e ∈ w.mapTxSpends)
    (hprev : e.1 = txin.prevout) (hne : e.2 ≠ tx.getHash E) : e.2 ∉ chainIds E full := by
  intro hmem
  obtain ⟨wtx, hwtx, hbase', txin', htxin', hprev'⟩ := h.spends e he
  obtain ⟨hid, hwtxT⟩ := h.keyed _ _ hwtx
  obtain ⟨tx', htx', htxid'⟩ := mem_map.mp hmem
  obtain rfl : tx' = wtx.tx := hT (hfull tx' htx') hwtxT (htxid'.trans hid.symm)
  have hsame := hvalid.spends _ htx' tx htx hbase' hbase txin' htxin' txin htxin
    (hprev'.trans hprev)
  exact hne (by rw [← hsame, hid])

/-- **One transaction of a connected block.** -/
theorem exists_syncConnectedTx (h : w.Sound E T C) (hC : ∀ id k, C id k → id ∈ chainIds E full)
    (hlast : 0 ≤ w.m_last_block_processed_height) {tx : CTransaction}
    (htx : tx ∈ full.flatMap ChainBlock.vtx) (hnew : ∀ k, ¬ C (tx.getHash E) k)
    (confirm : Confirmation) (hstatus : confirm.status = .confirmed) :
    ∃ w', w.syncTransaction E tx confirm = .ok w' ∧
      w'.Sound E T (fun id k => C id k ∨ k = confirm.block_height ∧ id = tx.getHash E) ∧
      w'.m_last_block_processed_height = w.m_last_block_processed_height ∧
      ∀ bound, confirm.block_height ≤ bound → w.ConflictsBelow bound → w'.ConflictsBelow bound := by
  obtain ⟨v, hv, hmark⟩ := exists_markConflicts confirm tx (h.spreadsIn hT hvalid hfull hlast)
    (fun hbase txin htxin e he => h.notMem_of_spends hT hvalid hfull htx hbase htxin he)
  have hvs : v.Sound E T C := h.remarked hmark fun id hid k hk => hid (hC id k hk)
  obtain ⟨w', hw', hr⟩ := hvs.exists_record tx confirm (hfull tx htx)
    fun wtx hwtx heq => hnew _ (hvs.confirmed _ wtx hwtx (heq ▸ hstatus))
  refine ⟨w', by rw [syncTransaction, hv]; exact hw', hvs.recorded hr (fun id' hne k => ?_)
    (fun _ _ => hstatus) (fun _ => .inr ⟨rfl, rfl⟩), hr.last.trans hmark.last, ?_⟩
  · simp [hne]
  intro bound hbound hbelow id wtx hlook hconf
  by_cases hid : id = tx.getHash E
  · rw [hid] at hlook
    rw [(hr.self wtx hlook).2, hstatus] at hconf
    cases hconf
  · rw [hr.others id hid] at hlook
    rcases hmark.lookup id with hold | ⟨-, wtx₀, confirm', -, hv', -, hheight⟩
    · exact hbelow id wtx (hold ▸ hlook) hconf
    · rw [hv'] at hlook
      cases hlook
      exact hheight ▸ hbound

/-- **The transactions of a connected block, one after the other.** -/
theorem exists_syncConnected {hash : Uint256} {nHeight : ℤ} (vtx : List CTransaction) (index : ℕ)
    (hvtx : ∀ tx ∈ vtx, tx ∈ full.flatMap ChainBlock.vtx)
    (hnodup : (vtx.map (getHash E)).Nodup) (h : w.Sound E T C)
    (hC : ∀ id k, C id k → id ∈ chainIds E full) (hnew : ∀ tx ∈ vtx, ∀ k, ¬ C (tx.getHash E) k)
    (hlast : 0 ≤ w.m_last_block_processed_height) :
    ∃ w', syncConnected E hash nHeight index vtx w = .ok w' ∧
      w'.Sound E T (fun id k => C id k ∨
        k = nHeight ∧ id ∈ vtx.map (getHash E)) ∧
      w'.m_last_block_processed_height = w.m_last_block_processed_height ∧
      ∀ bound, nHeight ≤ bound → w.ConflictsBelow bound → w'.ConflictsBelow bound := by
  induction vtx generalizing w C index with
  | nil => exact ⟨w, rfl, h.congr fun id k => by simp, rfl, fun _ _ hb => hb⟩
  | cons tx vtx ih =>
    obtain ⟨hfirst, hnodup⟩ := nodup_cons.mp hnodup
    obtain ⟨v, hv, hvs, hvlast, hvb⟩ := h.exists_syncConnectedTx hT hvalid hfull hC hlast
      (hvtx tx (by simp)) (hnew tx (by simp)) ⟨.confirmed, nHeight, hash, index⟩ rfl
    have hC' : ∀ id k, (C id k ∨ k = nHeight ∧ id = tx.getHash E) → id ∈ chainIds E full := by
      rintro id k (hk | ⟨-, rfl⟩)
      · exact hC id k hk
      · exact mem_map_of_mem (hvtx tx (by simp))
    have hnew' : ∀ tx' ∈ vtx, ∀ k, ¬ (C (tx'.getHash E) k ∨
        k = nHeight ∧ tx'.getHash E = tx.getHash E) := by
      rintro tx' h' k (hk | ⟨-, heq⟩)
      · exact hnew tx' (by simp [h']) k hk
      · exact hfirst (heq ▸ mem_map_of_mem h')
    obtain ⟨w', hw', hsound, hlast', hb⟩ := ih (index + 1) (fun tx' h' => hvtx tx' (by simp [h']))
      hnodup hvs hC' hnew' (hvlast ▸ hlast)
    refine ⟨w', by rw [syncConnected, hv]; exact hw', hsound.congr fun id k => ?_,
      hlast'.trans hvlast, fun bound hbound hbelow => hb bound hbound (hvb bound hbound hbelow)⟩
    simp only [map_cons, mem_cons]
    tauto

end Connect

/-! ## A block is disconnected -/

/-- **One transaction of a disconnected block.** -/
theorem exists_syncDisconnectedTx (h : w.Sound E T C) {tx : CTransaction} (hT : tx ∈ T)
    (n : ℤ) (hn : C (tx.getHash E) n) :
    ∃ w', w.syncTransaction E tx .none = .ok w' ∧
      w'.Sound E T (fun id k => C id k ∧ id ≠ tx.getHash E) ∧
      w'.m_last_block_processed_height = w.m_last_block_processed_height ∧
      ∀ bound, w'.ConflictsBelow bound ↔ w.ConflictsBelow bound := by
  obtain ⟨w', hw', hr⟩ := h.exists_record tx .none hT
    fun wtx hwtx heq => by simp [h.connected _ wtx n hwtx hn, Confirmation.none] at heq
  refine ⟨w', by rw [syncTransaction]; exact hw', h.recorded hr (fun id' hne k => ?_)
    (fun k hk => absurd rfl hk.2) (fun hconf => by cases hconf), hr.last, fun bound => ?_⟩
  · simp [hne]
  constructor
  · intro hbelow id wtx hlook hconf
    have hid : id ≠ tx.getHash E := fun heq => by
      rw [heq] at hlook
      rw [h.connected _ wtx n hlook hn] at hconf
      cases hconf
    exact hbelow id wtx (by rw [hr.others id hid]; exact hlook) hconf
  · intro hbelow id wtx hlook hconf
    have hid : id ≠ tx.getHash E := fun heq => by
      rw [heq] at hlook
      rw [(hr.self wtx hlook).2] at hconf
      cases hconf
    exact hbelow id wtx (by rw [← hr.others id hid]; exact hlook) hconf

/-- **The transactions of a disconnected block, one after the other.** -/
theorem exists_syncDisconnected (vtx : List CTransaction) (hT : ∀ tx ∈ vtx, tx ∈ T)
    (hnodup : (vtx.map (getHash E)).Nodup) {n : ℤ} (h : w.Sound E T (fun id k => C id k ∨
      k = n ∧ id ∈ vtx.map (getHash E)))
    (hC : ∀ tx ∈ vtx, ∀ k, ¬ C (tx.getHash E) k) :
    ∃ w', vtx.foldlM (fun w tx => w.syncTransaction E tx .none) w = .ok w' ∧ w'.Sound E T C ∧
      w'.m_last_block_processed_height = w.m_last_block_processed_height ∧
      ∀ bound, w'.ConflictsBelow bound ↔ w.ConflictsBelow bound := by
  induction vtx generalizing w with
  | nil => exact ⟨w, rfl, h.congr fun id k => by simp, rfl, fun _ => Iff.rfl⟩
  | cons tx vtx ih =>
    obtain ⟨hfirst, hnodup⟩ := nodup_cons.mp hnodup
    obtain ⟨v, hv, hvs, hvlast, hvb⟩ := h.exists_syncDisconnectedTx (hT tx (by simp)) n
      (.inr ⟨rfl, by simp⟩)
    have hrest : v.Sound E T (fun id k => C id k ∨ k = n ∧ id ∈ vtx.map (getHash E)) := by
      refine hvs.congr fun id k => ?_
      simp only [map_cons, mem_cons]
      constructor
      · rintro ⟨hk | ⟨rfl, heq | hmem⟩, hne⟩
        · exact .inl hk
        · exact absurd heq hne
        · exact .inr ⟨rfl, hmem⟩
      · rintro (hk | ⟨rfl, hmem⟩)
        · refine ⟨.inl hk, ?_⟩
          rintro rfl
          exact hC tx (by simp) k hk
        · exact ⟨.inr ⟨rfl, .inr hmem⟩, fun heq => hfirst (heq ▸ hmem)⟩
    obtain ⟨w', hw', hsound, hlast, hb⟩ := ih (fun tx' h' => hT tx' (by simp [h'])) hnodup hrest
      (fun tx' h' => hC tx' (by simp [h']))
    exact ⟨w', by rw [foldlM_cons, hv]; exact hw', hsound, hlast.trans hvlast,
      fun bound => (hb bound).trans (hvb bound)⟩

end Sound

end WalletTxs

end Passion
