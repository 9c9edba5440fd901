import Passion.Chat.Node
import Passion.Common.Runs

/-!
# The queue of messages to send

`AddMessageToSend` puts a message into a table under the hash of what is serialized of it, and
`ProcessMessages` takes out what it could send. The text is not serialized before it is encrypted,
so of two messages to one address in the same second the second replaces the first.
-/

namespace Passion

open OrderedMap List Except CChatMessage ChatOutput Multiset

/-! ## What tells two waiting messages apart -/

/-- A byte vector is told from its serialization. -/
theorem varBytes_injective {a b : Bytes} (h : varBytes a = varBytes b) : a = b := by
  have hlen : (compactSize a.length).length + a.length = (compactSize b.length).length + b.length := by
    simpa [varBytes] using congrArg length h
  have heq : a.length = b.length := by
    rcases Nat.lt_trichotomy a.length b.length with hlt | heq | hgt
    · have hmono := length_compactSize_mono hlt.le
      omega
    · exact heq
    · have hmono := length_compactSize_mono hgt.le
      omega
  exact (append_inj' h heq).2

/-- **What is serialized of a new message**: its destination and the time. -/
theorem CChatMessage.create_serialize_iff {t t' : ℤ} {dest dest' text text' : StdString} :
    (create t dest text).serialize = (create t' dest' text').serialize ↔
      dest = dest' ∧ toUInt64 t = toUInt64 t' := by
  constructor
  · intro h
    obtain ⟨hfront, htime⟩ := append_inj' h (by simp)
    have hdest : varBytes dest = varBytes dest' := by simpa [create, default] using hfront
    refine ⟨varBytes_injective hdest, UInt64.toNat_inj.mp ?_⟩
    exact Bytes.ofNatLE_injective (UInt64.toNat_lt _) (UInt64.toNat_lt _) htime
  · rintro ⟨rfl, ht⟩
    simp [serialize, create, default, ht]

/-! ## The queue -/

/-- The address and the text of a message. -/
def CChatMessage.pair (m : CChatMessage) : StdString × StdString := (m.strDestination, m.strMessage)

/-- What a waiting message keeps while it waits. -/
def CChatMessage.content (m : CChatMessage) : (StdString × StdString) × UInt64 :=
  (m.pair, m.timestamp)

/-- The messages an output sends. -/
def ChatOutput.sentPair : ChatOutput → Option (StdString × StdString)
  | .relayChatMessage m => some m.pair
  | _ => none

namespace CChat

variable {E : ChatEnv} {wallet : ChatWallet} {getTime : Uint256 → ℤ} {chat : CChat}

/-- The messages in the queue. -/
def pending (chat : CChat) : Multiset (StdString × StdString) :=
  (chat.mapChatMessages.entries.map fun e => e.2.pair : List _)

variable {output : List ChatOutput}

/-- A message that is sent is relayed as it is, one that is not is not. -/
theorem sendMessageToRecipient_output {nTime : ℤ} {m : CChatMessage} {sent : Bool}
    (h : sendMessageToRecipient E wallet nTime m chat = .ok (sent, output)) :
    output.filterMap sentPair = if sent then [m.pair] else [] := by
  unfold sendMessageToRecipient at h
  dsimp only at h
  split_ifs at h
  · cases h
    rfl
  · obtain ⟨keyid, -, h⟩ := bind_eq_ok.mp h
    split at h
    · cases h
      rfl
    · split at h
      · cases h
        rfl
      · obtain ⟨⟨m', n⟩, hencrypt, h⟩ := bind_eq_ok.mp h
        cases h
        unfold encrypt at hencrypt
        dsimp only at hencrypt
        split_ifs at hencrypt
        cases hencrypt
        rfl

variable (E wallet getTime chat) in
/-- Whether `ProcessMessages` sends a waiting message. -/
def sends (e : Uint256 × CChatMessage) : Bool :=
  (chat.isAddressPubkeyAvailable e.2.strDestination).1 &&
    match sendMessageToRecipient E wallet (getTime e.1) e.2 chat with
    | .ok (sent, _) => sent
    | .error _ => false

/-- The queue without what changes while a message waits. -/
def keyed (chat : CChat) : List (Uint256 × (StdString × StdString) × UInt64) :=
  chat.mapChatMessages.entries.map fun e => (e.1, e.2.content)

theorem isAddressPubkeyAvailable_snd (chat : CChat) (address : StdString) :
    (chat.isAddressPubkeyAvailable address).2.mapAddressPubkey = chat.mapAddressPubkey ∧
      (chat.isAddressPubkeyAvailable address).2.mapChatMessages = chat.mapChatMessages := by
  unfold isAddressPubkeyAvailable
  split_ifs
  · exact ⟨rfl, rfl⟩
  · split
    · exact ⟨rfl, rfl⟩
    · exact ⟨rfl, rfl⟩

variable {chat' : CChat}

/-- Sending reads the keys of the addresses and nothing else of the chat. -/
theorem sendMessageToRecipient_congr (nTime : ℤ) (m : CChatMessage)
    (h : chat'.mapAddressPubkey = chat.mapAddressPubkey) :
    sendMessageToRecipient E wallet nTime m chat' = sendMessageToRecipient E wallet nTime m chat := by
  unfold sendMessageToRecipient getPubKeyFromAddress
  rw [h]

theorem isAddressPubkeyAvailable_fst_congr (address : StdString)
    (h : chat'.mapAddressPubkey = chat.mapAddressPubkey) :
    (chat'.isAddressPubkeyAvailable address).1 = (chat.isAddressPubkeyAvailable address).1 := by
  unfold isAddressPubkeyAvailable
  rw [h]
  split_ifs
  · rfl
  · split
    · rfl
    · rfl

/-- **The loop of `ProcessMessages`**: it sends the messages it can, in order, and leaves the
keys of the addresses and the queue as they are. -/
theorem processLoop_spec {rest : List (Uint256 × CChatMessage)} {p p' : Processed}
    (hkeys : p.chat.mapAddressPubkey = chat.mapAddressPubkey)
    (hrest : ∀ e ∈ rest, (e.1, e.2.content) ∈ p.chat.keyed)
    (h : processLoop E wallet getTime rest p = .ok p') :
    p'.chat.keyed = p.chat.keyed ∧
      p'.send = p.send ++ (rest.filter (sends E wallet getTime chat)).map (·.1) ∧
      p'.output.filterMap sentPair = p.output.filterMap sentPair ++
        (rest.filter (sends E wallet getTime chat)).map (·.2.pair) := by
  induction rest generalizing p with
  | nil =>
    cases h
    simp
  | cons e rest ih =>
    obtain ⟨hash, m⟩ := e
    have hrest' : ∀ e ∈ rest, (e.1, e.2.content) ∈ p.chat.keyed := fun e he =>
      hrest e (mem_cons_of_mem _ he)
    obtain ⟨hkeys', hqueue⟩ := isAddressPubkeyAvailable_snd p.chat m.strDestination
    have hkeyed : (p.chat.isAddressPubkeyAvailable m.strDestination).2.keyed = p.chat.keyed := by
      rw [keyed, hqueue, keyed]
    have havail := isAddressPubkeyAvailable_fst_congr m.strDestination hkeys
    unfold processLoop at h
    dsimp only at h
    split_ifs at h with hav hreq
    · obtain ⟨⟨sent, output⟩, hsend, h⟩ := bind_eq_ok.mp h
      have hout := sendMessageToRecipient_output hsend
      rw [sendMessageToRecipient_congr _ _ (hkeys'.trans hkeys)] at hsend
      have hsends : sends E wallet getTime chat (hash, m) = sent := by
        simp [sends, ← havail, hav, hsend]
      obtain ⟨h1, h2, h3⟩ := ih (hkeys'.trans hkeys) (by rw [hkeyed]; exact hrest') h
      refine ⟨h1.trans hkeyed, ?_, ?_⟩
      · cases sent with
        | true => simpa [hsends] using h2
        | false => simpa [hsends] using h2
      · rw [filterMap_append, hout] at h3
        cases sent with
        | true => simpa [hsends] using h3
        | false => simpa [hsends] using h3
    · have hsends : sends E wallet getTime chat (hash, m) = false := by
        simp [sends, ← havail, hav]
      have hmem : (hash, m.content) ∈ p.chat.keyed := hrest _ (mem_cons_self ..)
      obtain ⟨⟨hash', w⟩, hw, hpair⟩ := mem_map.mp hmem
      obtain ⟨rfl, hcontent⟩ := Prod.mk.inj hpair
      -- the flag that the key has been asked for is set in place
      have hflag : ((p.chat.mapChatMessages.insert hash'
          { m with isPubKeyRequested := true }).entries.map fun e => (e.1, e.2.content)) =
            p.chat.keyed :=
        map_insert_of_mem hw (by rw [hcontent]; rfl)
      obtain ⟨h1, h2, h3⟩ := ih (hkeys'.trans hkeys) (by
        simp only [keyed, hqueue, hflag]
        exact hrest') h
      refine ⟨h1.trans ?_, by simpa [hsends] using h2, ?_⟩
      · simp [keyed, hqueue, hflag]
      · have hnone : [relayPubkeyRequest (.request m.strDestination)].filterMap sentPair = [] := rfl
        simpa [hsends, hnone] using h3
    · have hsends : sends E wallet getTime chat (hash, m) = false := by
        simp [sends, ← havail, hav]
      obtain ⟨h1, h2, h3⟩ := ih (hkeys'.trans hkeys) (by rw [hkeyed]; exact hrest') h
      exact ⟨h1.trans hkeyed, by simpa [hsends] using h2, by simpa [hsends] using h3⟩

theorem pending_eq_map_keyed (chat : CChat) :
    chat.pending = (chat.keyed.map fun x => x.2.1 : List _) := by
  simp [pending, keyed, content, Function.comp_def]

/-- **A run of `ProcessMessages`** sends some of the messages and keeps the others. -/
theorem processMessages_spec (h : processMessages E wallet getTime chat = .ok (chat', output)) :
    chat.pending = (output.filterMap sentPair : List _) + chat'.pending ∧
      chat'.keyed ⊆ chat.keyed := by
  obtain ⟨p, hloop, h⟩ := bind_eq_ok.mp h
  cases h
  have hkeys : (⟨chat, [], []⟩ : Processed).chat.mapAddressPubkey = chat.mapAddressPubkey := rfl
  have hmem : ∀ e ∈ chat.mapChatMessages.entries,
      (e.1, e.2.content) ∈ (⟨chat, [], []⟩ : Processed).chat.keyed :=
    fun e he => mem_map_of_mem he
  obtain ⟨hkeyed, hsend, hout⟩ := processLoop_spec hkeys hmem hloop
  let sent := chat.mapChatMessages.entries.filter (sends E wallet getTime chat)
  -- an entry has its key among those to erase exactly if it was sent
  have hkey : ∀ e ∈ chat.mapChatMessages.entries,
      (e.1 ∉ sent.map (·.1)) ↔ sends E wallet getTime chat e = false := by
    intro e he
    rw [List.mem_map, ← Bool.not_eq_true, not_iff_not]
    constructor
    · rintro ⟨e', he', hkey⟩
      obtain ⟨hmem, hsends⟩ := mem_filter.mp he'
      have hval : e'.2 = e.2 := eq_of_mem (hkey ▸ hmem) he
      rwa [← Prod.ext hkey hval]
    · intro hsends
      exact ⟨e, mem_filter.mpr ⟨he, hsends⟩, rfl⟩
  have hleft : (p.chat.mapChatMessages.eraseAll p.send).entries.map (fun e => (e.1, e.2.content)) =
      (chat.mapChatMessages.entries.filter fun e => !sends E wallet getTime chat e).map
        fun e => (e.1, e.2.content) := by
    have hfilter : chat.mapChatMessages.entries.filter (fun e => decide (e.1 ∉ sent.map (·.1))) =
        chat.mapChatMessages.entries.filter fun e => !sends E wallet getTime chat e := by
      refine filter_congr fun e he => ?_
      rw [Bool.eq_iff_iff, decide_eq_true_iff, hkey e he, Bool.not_eq_true']
    have hmap := congrArg (List.filter fun x => decide (x.1 ∉ sent.map (·.1))) hkeyed
    simp only [keyed, List.filter_map] at hmap
    rw [entries_eraseAll, hsend]
    exact hmap.trans (congrArg _ hfilter)
  constructor
  · have hperm := filter_append_perm (sends E wallet getTime chat) chat.mapChatMessages.entries
    have hpending : chat.pending = ((sent ++ chat.mapChatMessages.entries.filter fun e =>
        !sends E wallet getTime chat e).map fun e => e.2.pair : List _) :=
      coe_eq_coe.mpr (hperm.symm.map _)
    rw [hpending, hout, pending_eq_map_keyed, keyed, hleft]
    simp [content, Function.comp_def, sent]
  · intro x hx
    rw [keyed, hleft] at hx
    exact map_subset _ (filter_subset_self _) hx

end CChat

/-! ## A sequence of calls -/

/-- A call on the queue, or a change the handlers make to the other tables between two calls. -/
inductive QueueCall
  | addMessageToSend (nTime : ℤ) (address message : StdString)
  | processMessages (wallet : ChatWallet) (getTime : Uint256 → ℤ)
  | handlers (mapMessagesReceived : OrderedMap Uint256 ℤ)
      (mapAddressPubkey : StdString → Option CPubKey) (vectRequestedPubkeys : List StdString)

/-- The message a call creates. -/
def QueueCall.created : QueueCall → Option CChatMessage
  | .addMessageToSend nTime address message => some (.create nTime address message)
  | _ => none

theorem QueueCall.eq_create {call : QueueCall} {m : CChatMessage} (h : call.created = some m) :
    ∃ nTime address message, m = .create nTime address message := by
  cases call with
  | addMessageToSend nTime address message => exact ⟨nTime, address, message, (Option.some.inj h).symm⟩
  | processMessages _ _ => simp [created] at h
  | handlers _ _ _ => simp [created] at h

/-- A chat with the pairs added and the pairs sent so far. -/
structure QueueRun where
  chat : CChat
  added : Multiset (StdString × StdString)
  sent : Multiset (StdString × StdString)

namespace QueueRun

variable (E : ChatEnv)

/-- The run after one more call. -/
def afterCall (run : QueueRun) : QueueCall → Result QueueRun
  | .addMessageToSend nTime address message =>
    .ok { run with
      chat := run.chat.addMessageToSend E nTime address message
      added := (address, message) ::ₘ run.added }
  | .processMessages wallet getTime =>
    (run.chat.processMessages E wallet getTime).bind fun (chat, output) =>
      .ok { run with
        chat := chat
        sent := run.sent + (output.filterMap ChatOutput.sentPair : List _) }
  | .handlers mapMessagesReceived mapAddressPubkey vectRequestedPubkeys =>
    .ok { run with chat := { run.chat with
      mapMessagesReceived := mapMessagesReceived
      mapAddressPubkey := mapAddressPubkey
      vectRequestedPubkeys := vectRequestedPubkeys } }

/-- An empty queue. -/
def start : QueueRun := ⟨.initial, 0, 0⟩

/-- **Nothing is lost**: what was added was sent or is pending. -/
def Balanced (run : QueueRun) : Prop := run.added = run.sent + run.chat.pending

/-- No two messages the calls create have one hash and different serializations. -/
def CollisionFree (calls : List QueueCall) : Prop :=
  ∀ m ∈ calls.filterMap QueueCall.created, ∀ m' ∈ calls.filterMap QueueCall.created,
    m.getHash E = m'.getHash E → m.serialize = m'.serialize

/-- A call that adds a message finds none waiting to the same address and of the same second. -/
def AddsApart (run : QueueRun) : QueueCall → Prop
  | .addMessageToSend nTime address _ => ∀ waiting ∈ run.chat.mapChatMessages.entries,
      ¬ (waiting.2.strDestination = address ∧ waiting.2.timestamp = toUInt64 nTime)
  | _ => True

variable {E} {run run' : QueueRun} {calls : List QueueCall}

/-- **What waits was created by a call** and is kept under its hash. -/
theorem exists_created (h : Run.after (afterCall E) start calls = .ok run)
    {x : Uint256 × (StdString × StdString) × UInt64} (hx : x ∈ run.chat.keyed) :
    ∃ m ∈ calls.filterMap QueueCall.created, x = (m.getHash E, m.content) := by
  revert x
  refine Run.invariant (P := fun run => ∀ {x}, x ∈ run.chat.keyed →
    ∃ m ∈ calls.filterMap QueueCall.created, x = (m.getHash E, m.content)) ?_ ?_ h
  · intro x hx
    simp [start, CChat.keyed, CChat.initial, OrderedMap.empty] at hx
  · intro pre call post prev next hcalls _ hcall hold x hx
    cases call with
    | addMessageToSend nTime address message =>
      cases hcall
      obtain ⟨e, he, rfl⟩ := mem_map.mp hx
      rcases mem_insert.mp he with rfl | ⟨he, -⟩
      · exact ⟨.create nTime address message, by simp [hcalls, QueueCall.created], rfl⟩
      · exact hold (mem_map_of_mem he)
    | processMessages wallet getTime =>
      obtain ⟨⟨chat, output⟩, hprocess, hcall⟩ := bind_eq_ok.mp hcall
      cases hcall
      exact hold ((CChat.processMessages_spec hprocess).2 hx)
    | handlers _ _ _ =>
      cases hcall
      exact hold hx

variable {address message : StdString}

/-- **Adding a message** keeps the balance exactly if nothing waits under its hash. -/
theorem balanced_add_iff {nTime : ℤ} (hb : run.Balanced)
    (h : run.afterCall E (.addMessageToSend nTime address message) = .ok run') :
    run'.Balanced ↔
      run.chat.mapChatMessages.find? ((create nTime address message).getHash E) = none := by
  cases h
  constructor
  · intro hb'
    rw [Option.eq_none_iff_forall_ne_some]
    intro w hw
    -- an entry that is replaced is gone, so there is one pair too few
    have hlen := congrArg length (map_insert_of_mem
      (f := fun _ => ()) (v := create nTime address message)
      (find?_eq_some_iff.mp hw) rfl)
    have hcard := congrArg card hb
    have hcard' := congrArg card hb'
    simp [CChat.pending, CChat.addMessageToSend] at hlen hcard hcard'
    omega
  · intro hnone
    have hperm := insert_perm (create nTime address message) hnone
    have hpending : (run.chat.addMessageToSend E nTime address message).pending =
        (address, message) ::ₘ run.chat.pending :=
      coe_eq_coe.mpr (hperm.map _)
    show (address, message) ::ₘ run.added = run.sent + _
    rw [hpending, add_cons, ← hb]

/-- The other calls keep the balance. -/
theorem Balanced.afterCall {call : QueueCall} (hb : run.Balanced)
    (hcall : call.created = none) (h : run.afterCall E call = .ok run') : run'.Balanced := by
  cases call with
  | addMessageToSend nTime address message => simp [QueueCall.created] at hcall
  | processMessages wallet getTime =>
    obtain ⟨⟨chat, output⟩, hprocess, h⟩ := bind_eq_ok.mp h
    cases h
    show run.added = run.sent + _ + chat.pending
    rw [Multiset.add_assoc, ← (CChat.processMessages_spec hprocess).1, hb]
  | handlers _ _ _ =>
    cases h
    exact hb

/-- A waiting message has the hash of a new one exactly if both are to one address and of one
second. -/
theorem find?_eq_none_iff {pre post : List QueueCall} {nTime : ℤ}
    (hfree : CollisionFree E (pre ++ .addMessageToSend nTime address message :: post))
    (h : Run.after (afterCall E) start pre = .ok run) :
    run.chat.mapChatMessages.find? ((create nTime address message).getHash E) = none ↔
      ∀ waiting ∈ run.chat.mapChatMessages.entries,
        ¬ (waiting.2.strDestination = address ∧ waiting.2.timestamp = toUInt64 nTime) := by
  have hcreated : create nTime address message ∈
      (pre ++ .addMessageToSend nTime address message :: post).filterMap QueueCall.created := by
    simp [QueueCall.created]
  rw [OrderedMap.find?_eq_none_iff]
  constructor
  · rintro hnone ⟨hash, waiting⟩ he ⟨rfl, htime⟩
    obtain ⟨m, hm, hkey⟩ := exists_created h (mem_map_of_mem he)
    obtain ⟨call, -, hcall⟩ := mem_filterMap.mp hm
    obtain ⟨t, dest, text, rfl⟩ := QueueCall.eq_create hcall
    obtain ⟨rfl, hcontent⟩ := Prod.mk.inj hkey
    obtain ⟨hpair, htime'⟩ := Prod.mk.inj hcontent
    have hserialize : (create t dest text).serialize =
        (create nTime waiting.strDestination message).serialize :=
      create_serialize_iff.mpr ⟨(Prod.mk.inj hpair).1.symm, htime'.symm.trans htime⟩
    refine hnone waiting ?_
    rw [getHash, ← hserialize]
    exact he
  · intro hapart waiting he
    obtain ⟨m, hm, hkey⟩ := exists_created h (mem_map_of_mem he)
    obtain ⟨call, -, hcall⟩ := mem_filterMap.mp hm
    obtain ⟨t, dest, text, rfl⟩ := QueueCall.eq_create hcall
    obtain ⟨hhash, hcontent⟩ := Prod.mk.inj hkey
    obtain ⟨hpair, htime'⟩ := Prod.mk.inj hcontent
    have hm' : create t dest text ∈
        (pre ++ .addMessageToSend nTime address message :: post).filterMap QueueCall.created := by
      rw [filterMap_append]
      exact mem_append_left _ hm
    obtain ⟨hdest, htime⟩ := create_serialize_iff.mp (hfree _ hcreated _ hm' hhash)
    exact hapart _ he ⟨(Prod.mk.inj hpair).1.trans hdest.symm, htime'.trans htime.symm⟩

end QueueRun

open QueueRun

/-- **When no queued message is lost.** Where the hash separates the messages that calls
create, what was added is what was sent and what is pending at every moment of the calls,
exactly if no message is added while one to the same address of the same second waits. -/
theorem always_balanced_iff {E : ChatEnv} {calls : List QueueCall} (hfree : CollisionFree E calls) :
    Run.Always (afterCall E) start Balanced calls ↔
      Run.EachStep (afterCall E) start AddsApart calls := by
  refine Run.always_iff_eachStep rfl fun pre call post run run' hcalls hrun hcall hb => ?_
  cases call with
  | addMessageToSend nTime address message =>
    subst hcalls
    exact (balanced_add_iff hb hcall).trans (find?_eq_none_iff hfree hrun)
  | processMessages wallet getTime => exact iff_of_true (hb.afterCall rfl hcall) trivial
  | handlers _ _ _ => exact iff_of_true (hb.afterCall rfl hcall) trivial

/-- Two messages to one address, added one second after the other. -/
theorem always_balanced_one_second_later :
    Run.Always (afterCall ChatSample.env) start Balanced
      [.addMessageToSend 0 [1] [2], .addMessageToSend 1 [1] [3]] := by
  refine (always_balanced_iff (by unfold CollisionFree; decide +kernel)).mpr ?_
  intro pre call post run run' hcalls hrun _
  match pre, hcalls with
  | [], hcalls =>
    obtain ⟨rfl, -⟩ := cons.inj hcalls
    cases hrun
    simp [AddsApart, start, CChat.initial, OrderedMap.empty]
  | [first], hcalls =>
    obtain ⟨rfl, rfl, -⟩ : QueueCall.addMessageToSend 0 [1] [2] = first ∧
        QueueCall.addMessageToSend 1 [1] [3] = call ∧ [] = post := by
      simpa using hcalls
    cases hrun
    unfold AddsApart
    decide +kernel
  | _ :: _ :: _, hcalls => simp at hcalls

/-- **A queued message can be lost**: of two texts for one address that are added in the same
second only the second is in the queue. -/
theorem not_always_balanced :
    ¬ ∀ (E : ChatEnv) (calls : List QueueCall), CollisionFree E calls →
      Run.Always (afterCall E) start Balanced calls := by
  intro hall
  let calls : List QueueCall := [.addMessageToSend 0 [1] [2], .addMessageToSend 0 [1] [3]]
  have hb := hall ChatSample.env calls (by unfold CollisionFree; decide +kernel) calls
    (prefix_refl _) _ rfl
  exact absurd (congrArg card hb) (by decide +kernel)

end Passion
