import Passion.Chat.Queue

/-!
# Addresses and their keys

A node learns the public key of an address from the response of any peer. Nothing compares the two:
`HandlePubkeyResponse` stores a valid key under the address the response names. So the table binds
addresses to their own keys as long as every response does.
-/

namespace Passion

open Except List

/-- Something that happens to the chat of a node: what its peers send, what its user writes,
and the two calls of the chat thread. The wallet is the one of that moment. -/
inductive ChatEvent
  | receivedChatMessage (wallet : ChatWallet) (nTime : ℤ) (message : CChatMessage)
  | pubkeyRequest (wallet : ChatWallet) (nTime : ℤ) (request : CChatPubkeyExchange)
  | pubkeyResponse (nTime : ℤ) (response : CChatPubkeyExchange)
  | addMessageToSend (nTime : ℤ) (address message : StdString)
  | processMessages (wallet : ChatWallet) (getTime : Uint256 → ℤ)
  | removeOutdatedEntry (nTime : ℤ)

namespace CChat

variable (E : ChatEnv)

/-- The chat after an event. -/
def afterEvent (chat : CChat) : ChatEvent → Result CChat
  | .receivedChatMessage wallet nTime message =>
    (chat.handleReceivedChatMessage E wallet nTime message).map (·.1)
  | .pubkeyRequest wallet nTime request =>
    (chat.handlePubkeyRequest E wallet nTime request).map (·.1)
  | .pubkeyResponse nTime response => (chat.handlePubkeyResponse E nTime response).map (·.1)
  | .addMessageToSend nTime address message =>
    .ok (chat.addMessageToSend E nTime address message)
  | .processMessages wallet getTime => (chat.processMessages E wallet getTime).map (·.1)
  | .removeOutdatedEntry nTime => .ok (chat.removeOutdatedEntry nTime)

/-- An address is the encoding of the id of a key. -/
def Owns (address : StdString) (key : CPubKey) : Prop :=
  encodeDestination E.toHashing E.prefixes (.keyID (key.getID E.toKeyOps)) false = .ok address

/-- A message was encrypted to a key: with the secret of that key and one of the sender. -/
def EncryptedTo (key : CPubKey) (message : CChatMessage) : Prop :=
  ∃ cryptKey, message.publicKey = E.getPubKey cryptKey ∧ E.ecdh key.vch cryptKey = some message.key

/-- **Keys are bound to their addresses**: every stored key is the one of its address, and
every message that is sent is encrypted to a key of its destination. -/
structure KeysBound (chat : CChat) : Prop where
  stored : ∀ address key, chat.mapAddressPubkey address = some key → Owns E address key
  encrypted : ∀ wallet getTime chat' output message,
    chat.processMessages E wallet getTime = .ok (chat', output) →
      .relayChatMessage message ∈ output →
        ∃ key, Owns E message.strDestination key ∧ EncryptedTo E key message

/-- A response that is new, with a valid key and an address, names the address of its key. -/
def RespondsTruly (chat : CChat) : ChatEvent → Prop
  | .pubkeyResponse _ response =>
    chat.mapMessagesReceived.find? (response.getHash E.toHashing) = none →
      response.pkey.isValid = true → response.address ≠ [] →
        Owns E response.address response.pkey
  | _ => True

variable {E} {wallet : ChatWallet} {getTime : Uint256 → ℤ} {chat chat' : CChat} {nTime : ℤ}

/-! ## What is sent -/

variable {output : List ChatOutput}

variable (E chat output) in
/-- What is sent is encrypted to the keys stored for the destinations. -/
def SentToStored : Prop :=
  ∀ message, .relayChatMessage message ∈ output →
    ∃ key, chat.mapAddressPubkey message.strDestination = some key ∧ EncryptedTo E key message

/-- A message is sent encrypted to the key stored for its destination. -/
theorem sentToStored_of_sendMessageToRecipient {m : CChatMessage} {sent : Bool}
    (h : sendMessageToRecipient E wallet nTime m chat = .ok (sent, output)) :
    SentToStored E chat output := by
  intro message hm
  unfold sendMessageToRecipient at h
  dsimp only at h
  split_ifs at h with hvalid
  · cases h
    simp at hm
  · -- an address without a key has the invalid one
    obtain ⟨key, hkey⟩ : ∃ key, chat.mapAddressPubkey m.strDestination = some key := by
      rw [← Option.ne_none_iff_exists']
      intro hnone
      exact hvalid (by rw [getPubKeyFromAddress, hnone]; rfl)
    obtain ⟨keyid, -, h⟩ := bind_eq_ok.mp h
    split at h
    · cases h
      simp at hm
    · next cryptKey hcrypt =>
      split at h
      · cases h
        simp at hm
      · next secret hsecret =>
        obtain ⟨⟨m', n⟩, hencrypt, h⟩ := bind_eq_ok.mp h
        cases h
        unfold CChatMessage.encrypt at hencrypt
        dsimp only at hencrypt
        split_ifs at hencrypt
        cases hencrypt
        obtain rfl := ChatOutput.relayChatMessage.inj (mem_singleton.mp hm)
        exact ⟨key, hkey, cryptKey, rfl, by simpa [getPubKeyFromAddress, hkey] using hsecret⟩

/-- The loop of `ProcessMessages` relays messages encrypted to the stored keys only. -/
theorem sentToStored_of_processLoop {rest : List (Uint256 × CChatMessage)} {p p' : Processed}
    (hkeys : p.chat.mapAddressPubkey = chat.mapAddressPubkey)
    (hp : SentToStored E chat p.output) (h : processLoop E wallet getTime rest p = .ok p') :
    p'.chat.mapAddressPubkey = chat.mapAddressPubkey ∧ SentToStored E chat p'.output := by
  induction rest generalizing p with
  | nil =>
    cases h
    exact ⟨hkeys, hp⟩
  | cons e rest ih =>
    obtain ⟨hash, m⟩ := e
    have hkeys' := (isAddressPubkeyAvailable_snd p.chat m.strDestination).1.trans hkeys
    unfold processLoop at h
    dsimp only at h
    split_ifs at h with hav hreq
    · obtain ⟨⟨sent, output⟩, hsend, h⟩ := bind_eq_ok.mp h
      rw [sendMessageToRecipient_congr _ _ hkeys'] at hsend
      refine ih hkeys' (fun message hm => ?_) h
      rcases mem_append.mp hm with hm | hm
      · exact hp message hm
      · exact sentToStored_of_sendMessageToRecipient hsend message hm
    · refine ih hkeys' (fun message hm => ?_) h
      rcases mem_append.mp hm with hm | hm
      · exact hp message hm
      · simp at hm
    · refine ih hkeys' ?_ h
      exact hp

/-- **What `ProcessMessages` sends** is encrypted to the keys stored for the destinations. -/
theorem processMessages_keys (h : processMessages E wallet getTime chat = .ok (chat', output)) :
    chat'.mapAddressPubkey = chat.mapAddressPubkey ∧ SentToStored E chat output := by
  obtain ⟨p, hloop, h⟩ := bind_eq_ok.mp h
  cases h
  exact sentToStored_of_processLoop rfl (by simp [SentToStored]) hloop

/-- A node whose stored keys are those of their addresses sends to them only. -/
theorem keysBound_of_stored
    (h : ∀ address key, chat.mapAddressPubkey address = some key → Owns E address key) :
    KeysBound E chat where
  stored := h
  encrypted wallet getTime chat' output message hprocess hm := by
    obtain ⟨key, hkey, henc⟩ := (processMessages_keys hprocess).2 message hm
    exact ⟨key, h _ _ hkey, henc⟩

/-! ## What is stored -/

theorem alreadyReceived_keys {hash : Uint256} {seen : Bool}
    (h : chat.alreadyReceived nTime hash = (seen, chat')) :
    chat'.mapAddressPubkey = chat.mapAddressPubkey := by
  unfold alreadyReceived at h
  split at h <;> cases h <;> rfl

/-- A handler other than that of responses leaves the keys as they are. -/
theorem handleReceivedChatMessage_keys {message : CChatMessage}
    (h : handleReceivedChatMessage E wallet nTime message chat = .ok (chat', output)) :
    chat'.mapAddressPubkey = chat.mapAddressPubkey := by
  unfold handleReceivedChatMessage at h
  split at h
  · next heq =>
    cases h
    exact alreadyReceived_keys heq
  · next heq =>
    have hkeys := alreadyReceived_keys heq
    obtain ⟨keyID, -, h⟩ := bind_eq_ok.mp h
    split at h
    · obtain ⟨shown, -, h⟩ := bind_eq_ok.mp h
      cases h
      exact hkeys
    · cases h
      exact hkeys

theorem handlePubkeyRequest_keys {request : CChatPubkeyExchange}
    (h : handlePubkeyRequest E wallet nTime request chat = .ok (chat', output)) :
    chat'.mapAddressPubkey = chat.mapAddressPubkey := by
  unfold handlePubkeyRequest at h
  split at h
  · next heq =>
    cases h
    exact alreadyReceived_keys heq
  · next heq =>
    have hkeys := alreadyReceived_keys heq
    obtain ⟨keyID, -, h⟩ := bind_eq_ok.mp h
    dsimp only at h
    split_ifs at h
    · cases h
      exact hkeys
    · cases h
      exact hkeys

/-- **What a response stores**: its key under its address, if it is new, the key is valid and
there is an address. -/
theorem handlePubkeyResponse_keys {response : CChatPubkeyExchange}
    (h : handlePubkeyResponse E nTime response chat = .ok (chat', output)) :
    chat'.mapAddressPubkey =
      if chat.mapMessagesReceived.find? (response.getHash E) = none ∧
          response.pkey.isValid = true ∧ response.address ≠ [] then
        Function.update chat.mapAddressPubkey response.address (some response.pkey)
      else chat.mapAddressPubkey := by
  unfold handlePubkeyResponse alreadyReceived at h
  cases hfind : chat.mapMessagesReceived.find? (response.getHash E) with
  | some v =>
    rw [hfind] at h
    cases h
    simp
  | none =>
    rw [hfind] at h
    dsimp only at h
    by_cases hvalid : response.pkey.isValid = true
    · rw [if_pos hvalid] at h
      cases h
      by_cases haddr : response.address = []
      · simp [addUpdateAddressWithPubKey, haddr]
      · simp [addUpdateAddressWithPubKey, haddr, hvalid]
    · rw [if_neg hvalid] at h
      cases h
      simp [hvalid]

/-- **One event** keeps the keys bound exactly if it is not an untrue response. -/
theorem KeysBound.afterEvent_iff {event : ChatEvent} (hb : KeysBound E chat)
    (h : chat.afterEvent E event = .ok chat') : KeysBound E chat' ↔ RespondsTruly E chat event := by
  have hkept : chat'.mapAddressPubkey = chat.mapAddressPubkey → KeysBound E chat' := fun hkeys =>
    keysBound_of_stored (by rw [hkeys]; exact hb.stored)
  cases event with
  | receivedChatMessage wallet nTime message =>
    obtain ⟨⟨c, output⟩, hret, rfl⟩ := map_eq_ok.mp h
    exact iff_of_true (hkept (handleReceivedChatMessage_keys hret)) trivial
  | pubkeyRequest wallet nTime request =>
    obtain ⟨⟨c, output⟩, hret, rfl⟩ := map_eq_ok.mp h
    exact iff_of_true (hkept (handlePubkeyRequest_keys hret)) trivial
  | addMessageToSend nTime address message =>
    cases h
    exact iff_of_true (hkept rfl) trivial
  | processMessages wallet getTime =>
    obtain ⟨⟨c, output⟩, hret, rfl⟩ := map_eq_ok.mp h
    exact iff_of_true (hkept (processMessages_keys hret).1) trivial
  | removeOutdatedEntry nTime =>
    cases h
    exact iff_of_true (hkept rfl) trivial
  | pubkeyResponse nTime response =>
    obtain ⟨⟨c, output⟩, hret, rfl⟩ := map_eq_ok.mp h
    have hkeys := handlePubkeyResponse_keys hret
    split_ifs at hkeys with hstored
    · constructor
      · intro hb' _ _ _
        exact hb'.stored _ _ (by rw [hkeys, Function.update_self])
      · intro htrue
        refine keysBound_of_stored fun address key hkey => ?_
        rw [hkeys, Function.update_apply] at hkey
        split_ifs at hkey with haddr
        · obtain rfl := Option.some.inj hkey
          exact haddr ▸ htrue hstored.1 hstored.2.1 hstored.2.2
        · exact hb.stored _ _ hkey
    · refine iff_of_true (hkept hkeys) fun hnew hvalid haddr => ?_
      exact absurd ⟨hnew, hvalid, haddr⟩ hstored

end CChat

open CChat

/-- **When keys stay bound to their addresses.** Whatever a node that has just started
receives, adds and processes, the keys are bound at every moment, exactly if every new response
with a valid key and an address names the address of its key. -/
theorem always_keysBound_iff (E : ChatEnv) (events : List ChatEvent) :
    Run.Always (afterEvent E) .initial (KeysBound E) events ↔
      Run.EachStep (afterEvent E) .initial (RespondsTruly E) events := by
  refine Run.always_iff_eachStep ?_ fun pre event post chat chat' _ _ hevent hb =>
    hb.afterEvent_iff hevent
  exact keysBound_of_stored fun address key hkey => by simp [initial] at hkey

/-- **A peer can put its key under any address**: one response stores a key under the address
of another. -/
theorem not_always_keysBound :
    ¬ ∀ (E : ChatEnv) (events : List ChatEvent),
      Run.Always (afterEvent E) .initial (KeysBound E) events := by
  intro hall
  let peer : CPubKey := .ofBytes (2 :: replicate 32 1)
  let victim : CPubKey := .ofBytes (2 :: replicate 32 7)
  obtain ⟨address, haddress⟩ :=
    encodeDestination_returns ChatSample.env ChatSample.env.prefixes
      (.keyID (victim.getID ChatSample.env)) false
  have hne : address ≠ [] := by
    rintro rfl
    revert haddress
    decide +kernel
  have hb := hall ChatSample.env [.pubkeyResponse 0 ⟨peer, address⟩] _ (prefix_refl _) _ rfl
  have howns := hb.stored address peer (by
    simp [addUpdateAddressWithPubKey, hne])
  rw [Owns, ← haddress] at howns
  revert howns
  decide +kernel

end Passion
