import Passion.Wallet.Conflicts

/-!
# The depth of wallet transactions

A transaction of the wallet is recorded as confirmed exactly while its block is connected, with the
height of that block, so its depth is right. A conflicted transaction keeps the height of the block
that conflicts with it when that block is disconnected: once the chain is two blocks below that
height, its depth is positive.
-/

namespace Passion

open List CTransaction WalletTxs

/-- The transaction is in a block of the chain at a height. -/
def ConnectedAt (H : Hashing) (chain : List ChainBlock) (id : Uint256) (h : ℤ) : Prop :=
  ∃ i b tx, chain[i]? = some b ∧ tx ∈ b.vtx ∧ tx.getHash H = id ∧ h = (i : ℕ)

section

variable {H : Hashing} {chain : List ChainBlock} {id : Uint256} {h : ℤ}

theorem chainIds_concat {b : ChainBlock} :
    chainIds H (chain ++ [b]) = chainIds H chain ++ b.vtx.map (getHash H) := by
  simp [chainIds]

namespace ConnectedAt

theorem concat_iff {b : ChainBlock} : ConnectedAt H (chain ++ [b]) id h ↔ ConnectedAt H chain id h ∨
      h = chain.length ∧ id ∈ b.vtx.map (CTransaction.getHash H) := by
  constructor
  · rintro ⟨i, b', tx, hi, htx, rfl, rfl⟩
    rcases lt_or_ge i chain.length with hlt | hge
    · rw [getElem?_append_left hlt] at hi
      exact .inl ⟨i, b', tx, hi, htx, rfl, rfl⟩
    · rw [getElem?_append_right hge, getElem?_singleton] at hi
      split at hi
      · next hzero =>
        cases hi
        exact .inr ⟨by omega, mem_map_of_mem htx⟩
      · cases hi
  · rintro (⟨i, b', tx, hi, htx, hid, hh⟩ | ⟨hh, hid⟩)
    · obtain ⟨hlt, -⟩ := List.getElem?_eq_some_iff.mp hi
      exact ⟨i, b', tx, by rwa [getElem?_append_left hlt], htx, hid, hh⟩
    · obtain ⟨tx, htx, rfl⟩ := mem_map.mp hid
      exact ⟨chain.length, b, tx, getElem?_concat_length, htx, rfl, hh⟩

variable (hc : ConnectedAt H chain id h)

include hc

theorem mem_chainIds : id ∈ chainIds H chain := by
  obtain ⟨i, b, tx, hi, htx, rfl, -⟩ := hc
  exact mem_map_of_mem (mem_flatMap.mpr ⟨b, mem_of_getElem? hi, htx⟩)

theorem lt_length : h < chain.length := by
  obtain ⟨i, b, tx, hi, -, -, rfl⟩ := hc
  obtain ⟨hlt, -⟩ := List.getElem?_eq_some_iff.mp hi
  exact_mod_cast hlt

/-- A transaction is connected at one height. -/
theorem unique {h' : ℤ} (hids : (chainIds H chain).Nodup) (hc' : ConnectedAt H chain id h') :
    h = h' := by
  obtain ⟨i, b, tx, hi, htx, rfl, rfl⟩ := hc
  obtain ⟨j, b', tx', hj, htx', hid, rfl⟩ := hc'
  obtain ⟨hilt, rfl⟩ := List.getElem?_eq_some_iff.mp hi
  obtain ⟨hjlt, rfl⟩ := List.getElem?_eq_some_iff.mp hj
  rw [chainIds, map_flatMap, nodup_flatMap, pairwise_iff_getElem] at hids
  have hmem : tx.getHash H ∈ chain[i].vtx.map (getHash H) := mem_map_of_mem htx
  have hmem' : tx.getHash H ∈ chain[j].vtx.map (getHash H) :=
    mem_map.mpr ⟨tx', htx', hid⟩
  rcases lt_trichotomy i j with hij | rfl | hij
  · exact absurd hmem' (hids.2 i j hilt hjlt hij hmem)
  · rfl
  · exact absurd hmem (hids.2 j i hjlt hilt hij hmem')

end ConnectedAt

end

/-! ## Following a chain -/

/-- The active chain, and a wallet that is told about it. The height of a block is its place. -/
structure WalletView where
  chain : List ChainBlock
  wallet : WalletTxs

/-- What the wallet is told. -/
inductive Notification
  | connected (b : ChainBlock)
  /-- The last block of the chain is disconnected. -/
  | disconnected

namespace WalletView

variable (E : WalletEnv) (T : Set CTransaction)

/-- A notification. -/
def step (s : WalletView) : Notification → Result WalletView
  | .connected b =>
    (s.wallet.blockConnected E b.hash s.chain.length b.vtx).map fun w => ⟨s.chain ++ [b], w⟩
  | .disconnected =>
    match s.chain.getLast? with
    | none => .ok s
    | some b =>
      (s.wallet.blockDisconnected E b.hash (s.chain.length - 1) b.vtx).map fun w =>
        ⟨s.chain.dropLast, w⟩

/-- **The wallet knows the chain**: the block it has processed last is the tip, and it has
recorded for its transactions whether they are connected, and where. -/
structure Tracks (s : WalletView) : Prop where
  ids : (chainIds E.toHashing s.chain).Nodup
  known : ∀ tx ∈ s.chain.flatMap ChainBlock.vtx, tx ∈ T
  nonempty : 0 < s.chain.length
  last : s.wallet.m_last_block_processed_height = s.chain.length - 1
  sound : s.wallet.Sound E T (ConnectedAt E.toHashing s.chain)

/-- **A notification follows the chain**: a connected block makes a valid chain, and the first
block is not disconnected. -/
def Fits (s : WalletView) : Notification → Prop
  | .connected b => ValidChain E.toHashing (s.chain ++ [b]) ∧ ∀ tx ∈ b.vtx, tx ∈ T
  | .disconnected => 2 ≤ s.chain.length

/-- Every notification of a list follows the chain as it is then. -/
def Follows (s : WalletView) (ns : List Notification) : Prop :=
  Run.EachAction (step E) s (Fits E T) ns

/-- **The depth of every transaction of the wallet is right.** -/
def DepthRight (s : WalletView) : Prop :=
  ∀ id wtx, s.wallet.mapWallet.lookup id = some wtx →
    ∃ d, s.wallet.getDepthInMainChain wtx.m_confirm = .ok d ∧
      (0 < d ↔ ∃ h, ConnectedAt E.toHashing s.chain id h) ∧
      (∀ h, ConnectedAt E.toHashing s.chain id h → d = (s.chain.length - 1) - h + 1) ∧
      (wtx.m_confirm.status = .conflicted ∨ wtx.m_confirm.status = .unconfirmed → d ≤ 0)

/-- **The condition on a notification**: a block is disconnected only when every conflicted
transaction of the wallet conflicts with a block at its height or below. -/
def AboveConflicts (s : WalletView) : Notification → Prop
  | .connected _ => True
  | .disconnected => s.wallet.ConflictsBelow (s.chain.length - 1)

instance (s : WalletView) : DecidablePred s.AboveConflicts
  | .connected _ => .isTrue trivial
  | .disconnected => by
    unfold AboveConflicts WalletTxs.ConflictsBelow
    infer_instance

variable {E T} {s t : WalletView}

/-- **All that can go wrong is the depth of a conflicted transaction.** -/
theorem Tracks.depthRight_iff (h : s.Tracks E T) :
    s.DepthRight E ↔ s.wallet.ConflictsBelow s.chain.length := by
  have hlast : 0 ≤ s.wallet.m_last_block_processed_height := by
    rw [h.last]
    have := h.nonempty
    omega
  constructor
  · intro hright id wtx hlook hstatus
    obtain ⟨d, hd, -, -, hconf⟩ := hright id wtx hlook
    rw [getDepthInMainChain_eq hlast, Except.ok.injEq, depth, hstatus] at hd
    simp only at hd
    have := hconf (.inl hstatus)
    have := h.last
    omega
  · intro hbelow id wtx hlook
    refine ⟨_, getDepthInMainChain_eq hlast wtx.m_confirm, ?_⟩
    by_cases hstatus : wtx.m_confirm.status = .confirmed
    · have hat := h.sound.confirmed id wtx hlook hstatus
      have hlt := hat.lt_length
      simp only [depth, hstatus, h.last]
      refine ⟨⟨fun _ => ⟨_, hat⟩, fun _ => by omega⟩, fun k hk => ?_, by simp⟩
      rw [hk.unique h.ids hat]
    · have hnot : ∀ k, ¬ ConnectedAt E s.chain id k :=
        fun k hk => hstatus (h.sound.connected id wtx k hlook hk)
      have hdepth : s.wallet.depth wtx.m_confirm ≤ 0 := by
        cases hcase : wtx.m_confirm.status with
        | confirmed => exact absurd hcase hstatus
        | conflicted =>
          have := hbelow id wtx hlook hcase
          simp only [depth, hcase, h.last]
          omega
        | unconfirmed => simp [depth, hcase]
        | abandoned => simp [depth, hcase]
      exact ⟨⟨fun hpos => absurd hdepth (not_le.mpr hpos), fun ⟨k, hk⟩ => absurd hk (hnot k)⟩,
        fun k hk => absurd hk (hnot k), fun _ => hdepth⟩

/-- **A block is connected.** -/
theorem Tracks.exists_connected (hT : Set.InjOn (getHash E) T)
    (h : s.Tracks E T) {b : ChainBlock} (hfits : s.Fits E T (.connected b)) :
    ∃ t, s.step E (.connected b) = .ok t ∧ t.Tracks E T ∧
      (s.wallet.ConflictsBelow s.chain.length → t.wallet.ConflictsBelow t.chain.length) := by
  obtain ⟨hvalid, hb⟩ := hfits
  have hids := hvalid.ids
  rw [chainIds_concat, nodup_append] at hids
  obtain ⟨-, hnodup, hdisj⟩ := hids
  have hfull : ∀ tx ∈ (s.chain ++ [b]).flatMap ChainBlock.vtx, tx ∈ T := by
    intro tx htx
    rw [flatMap_append, flatMap_singleton, mem_append] at htx
    exact htx.elim (h.known tx) (hb tx)
  have hC : ∀ id k, ConnectedAt E s.chain id k → id ∈ chainIds E (s.chain ++ [b]) := by
    intro id k hk
    rw [chainIds_concat]
    exact mem_append_left _ hk.mem_chainIds
  have hnew : ∀ tx ∈ b.vtx, ∀ k, ¬ ConnectedAt E s.chain (tx.getHash E) k :=
    fun tx htx k hk => hdisj _ hk.mem_chainIds _ (mem_map_of_mem htx) rfl
  obtain ⟨w, hw, hsound, hlast, hbelow⟩ :=
    (h.sound.withLast b.hash s.chain.length).exists_syncConnected hT hvalid hfull b.vtx 0
      (fun tx htx => by simp [htx]) hnodup hC hnew (Int.natCast_nonneg _)
  refine ⟨⟨s.chain ++ [b], w⟩, ?_, ⟨hvalid.ids, hfull, by simp, ?_, ?_⟩, fun hs => ?_⟩
  · rw [step, blockConnected, hw]
    rfl
  · simpa using hlast
  · exact hsound.congr fun id k => ConnectedAt.concat_iff.symm
  · refine hbelow _ (by simp) fun id wtx hlook hconf => ?_
    exact (hs id wtx hlook hconf).trans (by simp)

/-- **A block is disconnected.** -/
theorem Tracks.exists_disconnected (h : s.Tracks E T) (hfits : s.Fits E T .disconnected) :
    ∃ t, s.step E .disconnected = .ok t ∧ t.Tracks E T ∧
      (t.wallet.ConflictsBelow t.chain.length ↔ s.wallet.ConflictsBelow (s.chain.length - 1)) := by
  obtain ⟨chain, b, hchain⟩ : ∃ chain b, s.chain = chain ++ [b] :=
    ⟨_, _, (dropLast_concat_getLast (ne_nil_of_length_pos h.nonempty)).symm⟩
  have hlen : s.chain.length = chain.length + 1 := by simp [hchain]
  have hids := h.ids
  rw [hchain, chainIds_concat, nodup_append] at hids
  obtain ⟨hrest, hnodup, hdisj⟩ := hids
  have hb : ∀ tx ∈ b.vtx, tx ∈ T := fun tx htx => h.known tx (by simp [hchain, htx])
  have hsound : s.wallet.Sound E T fun id k => ConnectedAt E chain id k ∨
      k = chain.length ∧ id ∈ b.vtx.map (getHash E) :=
    h.sound.congr fun id k => by rw [hchain]; exact ConnectedAt.concat_iff
  have hold : ∀ tx ∈ b.vtx, ∀ k, ¬ ConnectedAt E chain (tx.getHash E) k :=
    fun tx htx k hk => hdisj _ hk.mem_chainIds _ (mem_map_of_mem htx) rfl
  obtain ⟨w, hw, hsound', hlast, hbelow⟩ :=
    (hsound.withLast b.hash (s.chain.length - 1 - 1)).exists_syncDisconnected b.vtx hb hnodup hold
  have hlen' : 2 ≤ s.chain.length := hfits
  refine ⟨⟨chain, w⟩, ?_, ⟨hrest, fun tx htx => h.known tx ?_, ?_, ?_, hsound'⟩, ?_⟩
  · simp only [step, hchain, getLast?_concat, dropLast_concat]
    rw [← hchain, blockDisconnected, hw]
    rfl
  · rw [hchain, flatMap_append]
    exact mem_append_left _ htx
  · simp only
    omega
  · simp only [hlast]
    omega
  · rw [hbelow]
    simp only [hlen, Nat.cast_add, Nat.cast_one, add_sub_cancel_right]
    exact Iff.rfl

/-- A notification that follows the chain. -/
theorem Tracks.exists_step (hT : Set.InjOn (getHash E) T)
    (h : s.Tracks E T) {n : Notification} (hfits : s.Fits E T n) :
    ∃ t, s.step E n = .ok t ∧ t.Tracks E T ∧ (s.wallet.ConflictsBelow s.chain.length →
      (t.wallet.ConflictsBelow t.chain.length ↔ s.AboveConflicts n)) := by
  cases n with
  | connected b =>
    obtain ⟨t, ht, htracks, hkeep⟩ := h.exists_connected hT hfits
    exact ⟨t, ht, htracks, fun hbelow => iff_of_true (hkeep hbelow) trivial⟩
  | disconnected =>
    obtain ⟨t, ht, htracks, hiff⟩ := h.exists_disconnected hfits
    exact ⟨t, ht, htracks, fun _ => hiff⟩

/-- **The wallet handles every notification, and the depths of its transactions are right all
along exactly if no block is disconnected below one that a transaction of the wallet is marked
to conflict with.** -/
theorem walletDepth_right_iff (hT : Set.InjOn (CTransaction.getHash E.toHashing) T)
    {ns : List Notification} (htracks : s.Tracks E T)
    (hconflicts : s.wallet.ConflictsBelow s.chain.length) (hfollows : Follows E T s ns) :
    (∃ t, Run.after (step E) s ns = .ok t) ∧
      (Run.Always (step E) s (DepthRight E) ns ↔ Run.EachStep (step E) s AboveConflicts ns) := by
  constructor
  · obtain ⟨t, ht, -⟩ := Run.exists_after (Tracks E T) htracks fun pre n post u hns hpre hu => by
      obtain ⟨t, ht, hu', -⟩ := hu.exists_step hT (hfollows pre n post u hns hpre)
      exact ⟨t, ht, hu'⟩
    exact ⟨t, ht⟩
  · refine Run.always_iff_of_invariant
      (fun u => u.Tracks E T ∧ u.wallet.ConflictsBelow u.chain.length) ⟨htracks, hconflicts⟩
      (fun u hu => hu.1.depthRight_iff.mpr hu.2) ?_
    rintro pre n post u t hns hpre hstep ⟨hu, hbelow⟩
    obtain ⟨t', ht', htracks', hiff⟩ := hu.exists_step hT (hfollows pre n post u hns hpre)
    cases hstep.symm.trans ht'
    exact ⟨fun hright => (hiff hbelow).mp (htracks'.depthRight_iff.mp hright),
      fun habove => ⟨htracks', (hiff hbelow).mpr habove⟩⟩

theorem chain_of_connected {b : ChainBlock} (h : s.step E (.connected b) = .ok t) :
    t.chain = s.chain ++ [b] := by
  obtain ⟨w, -, rfl⟩ := Except.map_eq_ok.mp h
  rfl

theorem chain_of_disconnected (h : s.step E .disconnected = .ok t) :
    t.chain = s.chain.dropLast := by
  simp only [step] at h
  split at h
  · next hnone =>
    cases h
    simp [getLast?_eq_none_iff.mp hnone]
  · obtain ⟨w, -, rfl⟩ := Except.map_eq_ok.mp h
    rfl

namespace DepthSample

/-- A wallet that takes no further transactions. -/
def env : WalletEnv where
  toHashing := sampleEnv.toHashing
  involvesMe := fun _ _ => false

/-- Coinbases that are told apart by their scripts. -/
def coinbase (n : UInt8) : CTransaction :=
  .plain [⟨⟨BaseUint.zero, 0xffffffff⟩, [n], 0⟩] [⟨5, []⟩]

/-- Spends the output of the first coinbase. -/
def spend (n : UInt8) : CTransaction :=
  .plain [⟨⟨(coinbase 0).getHash env.toHashing, 0⟩, [n], 0⟩] [⟨5, []⟩]

def txs : List CTransaction :=
  [coinbase 0, coinbase 1, coinbase 2, coinbase 3, spend 0, spend 1]

/-- A block with a spend of the output that the wallet spends too. -/
def conflicting : ChainBlock := ⟨BaseUint.ofNat 3, [coinbase 2, spend 1]⟩

/-- A block on top of it. -/
def later : ChainBlock := ⟨BaseUint.ofNat 4, [coinbase 3]⟩

/-- A chain of two blocks, and a wallet with an unconfirmed spend. -/
def start : WalletView where
  chain := [⟨BaseUint.ofNat 1, [coinbase 0]⟩, ⟨BaseUint.ofNat 2, [coinbase 1]⟩]
  wallet :=
    { mapWallet := AList.insert ((spend 0).getHash env.toHashing) ⟨spend 0, .none⟩ ∅
      mapTxSpends := [(⟨(coinbase 0).getHash env.toHashing, 0⟩, (spend 0).getHash env.toHashing)]
      m_last_block_processed := BaseUint.ofNat 2
      m_last_block_processed_height := 1 }

/-- The two blocks are connected, and the upper one is disconnected. -/
def settled : List Notification := [.connected conflicting, .connected later, .disconnected]

/-- The block is connected, and a reorganisation disconnects it and the one before. -/
def notifications : List Notification := [.connected conflicting, .disconnected, .disconnected]

theorem injOn_txs : Set.InjOn (getHash env) {tx | tx ∈ txs} := by
  have hinj : ∀ a ∈ txs, ∀ b ∈ txs, a.getHash env = b.getHash env → a = b := by
    decide +kernel
  exact hinj

theorem start_tracks : start.Tracks env {tx | tx ∈ txs} where
  ids := by decide +kernel
  known := by decide +kernel
  nonempty := by decide
  last := rfl
  sound :=
    { keyed := by simp only [Set.mem_ofPred_eq]; decide +kernel
      connected := fun id wtx k hlook hk => by
        have hno : ∀ id wtx, start.wallet.mapWallet.lookup id = some wtx →
            id ∉ chainIds env start.chain := by decide +kernel
        exact absurd hk.mem_chainIds (hno id wtx hlook)
      confirmed := fun id wtx hlook hstatus => by
        have hno : ∀ id wtx, start.wallet.mapWallet.lookup id = some wtx →
            wtx.m_confirm.status ≠ .confirmed := by decide +kernel
        exact absurd hstatus (hno id wtx hlook)
      spends := by decide +kernel }

theorem start_conflictsBelow : start.wallet.ConflictsBelow start.chain.length := by
  unfold WalletTxs.ConflictsBelow
  decide +kernel

theorem follows_conflicting {ns : List Notification}
    (h : ∀ t, t.chain = start.chain ++ [conflicting] → Follows env {tx | tx ∈ txs} t ns) :
    Follows env {tx | tx ∈ txs} start (.connected conflicting :: ns) := by
  have hvalid : ValidChain env (start.chain ++ [conflicting]) :=
    ⟨by decide +kernel, by decide +kernel, by decide +kernel⟩
  exact Run.EachAction.cons ⟨hvalid, by decide +kernel⟩ fun t ht => h t (chain_of_connected ht)

theorem settled_follows : Follows env {tx | tx ∈ txs} start settled := by
  have hvalid : ValidChain env (start.chain ++ [conflicting] ++ [later]) :=
    ⟨by decide +kernel, by decide +kernel, by decide +kernel⟩
  refine follows_conflicting fun t ht => ?_
  refine Run.EachAction.cons ⟨by rwa [ht], by decide +kernel⟩ fun u hu => ?_
  have huchain := chain_of_connected hu
  exact Run.EachAction.cons (by simp [Fits, huchain, ht]) fun _ _ => Run.eachAction_nil

theorem start_follows : Follows env {tx | tx ∈ txs} start notifications := by
  refine follows_conflicting fun t ht => ?_
  refine Run.EachAction.cons (by simp [Fits, ht, start]) fun u hu => ?_
  have huchain := chain_of_disconnected hu
  exact Run.EachAction.cons (by simp [Fits, huchain, ht, start]) fun _ _ => Run.eachAction_nil

end DepthSample

open DepthSample in
/-- A spend of the wallet is marked as conflicted by a block, and the block above that one is
disconnected. -/
theorem walletDepth_right_reorganised :
    (∃ t, Run.after (step env) start settled = .ok t ∧ ∃ wtx,
      t.wallet.mapWallet.lookup ((spend 0).getHash env.toHashing) = some wtx ∧
        wtx.m_confirm.status = .conflicted) ∧
      Run.Always (step env) start (DepthRight env) settled := by
  refine ⟨by decide +kernel, (walletDepth_right_iff injOn_txs start_tracks start_conflictsBelow
    settled_follows).2.mpr (Run.EachAction.eachStep (.of_get ?_))⟩
  decide +kernel

open DepthSample in
/-- **A conflicted transaction can get a positive depth**: two blocks are disconnected, the
first of them the one that it conflicts with. -/
theorem not_walletDepth_right :
    ¬ ∀ (E : WalletEnv) (T : Set CTransaction) (s : WalletView) (ns : List Notification),
      Set.InjOn (CTransaction.getHash E.toHashing) T → s.Tracks E T →
      s.wallet.ConflictsBelow s.chain.length → Follows E T s ns →
        Run.Always (step E) s (DepthRight E) ns := by
  intro h
  have hright := h env {tx | tx ∈ txs} start notifications injOn_txs start_tracks
    start_conflictsBelow start_follows
  obtain ⟨t, ht, wtx, hlook, hstatus, hone⟩ : ∃ t,
      Run.after (step env) start notifications = .ok t ∧
      ∃ wtx, t.wallet.mapWallet.lookup ((spend 0).getHash env) = some wtx ∧
        wtx.m_confirm.status = .conflicted ∧
          t.wallet.getDepthInMainChain wtx.m_confirm = .ok 1 := by
    decide +kernel
  obtain ⟨d, hd, -, -, hneg⟩ := hright notifications (prefix_refl _) t ht _ wtx hlook
  cases hd.symm.trans hone
  exact absurd (hneg (.inl hstatus)) (by decide)

end WalletView

end Passion
