import Passion.Chat.Node
import Passion.Common.Stateful

/-!
# What the handlers survive

A peer chooses every field of what it sends. The handlers take the key id out of the decoded address
without asking whether there is one, and `decrypt` believes the length that stands in the message;
an error of OpenSSL aborts the process.
-/

namespace Passion

open Except

/-- What a peer can send to the chat. -/
inductive PeerMessage
  | chatMessage (message : CChatMessage)
  | pubkeyRequest (request : CChatPubkeyExchange)
  | pubkeyResponse (response : CChatPubkeyExchange)

namespace CChat

variable (E : ChatEnv) (wallet : ChatWallet) (nTime : ℤ) (chat : CChat)

/-- The handler of what a peer sends. -/
def handle : PeerMessage → Result (CChat × List ChatOutput)
  | .chatMessage message => chat.handleReceivedChatMessage E wallet nTime message
  | .pubkeyRequest request => chat.handlePubkeyRequest E wallet nTime request
  | .pubkeyResponse response => chat.handlePubkeyResponse E nTime response

/-- The part of the encrypted message that counts can be read, and decrypts to a text for
which there is room with its terminator. -/
def Decrypts (ckey : CKey) (message : CChatMessage) (plaintext : Bytes) : Prop :=
  0 ≤ toInt message.cipher_length.toNat ∧
    toInt message.cipher_length.toNat ≤ message.vchEncryptedMessage.length ∧
    E.aesDecrypt ((E.ecdh message.publicKey.vch ckey).getD message.key)
      (message.vchEncryptedMessage.take (toInt message.cipher_length.toNat).toNat) =
        some plaintext ∧
    plaintext.length < MESSAGE_BUFFER_LENGTH

/-- An address that decodes to the id of a key. -/
def NamesKey (address : StdString) (keyID : CKeyID) : Prop :=
  decodeDestination E.toHashing E.prefixes address = .ok (.keyID keyID)

/-- A message of a peer that does not end the process: it has been received before, or it names
a key; and if that key is in the wallet, a chat message decrypts. -/
def Harmless : PeerMessage → Prop
  | .chatMessage message =>
    chat.mapMessagesReceived.find? (message.getHash E) ≠ none ∨
      ∃ keyID, NamesKey E message.strDestination keyID ∧
        ∀ ckey, wallet.getKey keyID = some ckey → ∃ plaintext, Decrypts E ckey message plaintext
  | .pubkeyRequest request =>
    chat.mapMessagesReceived.find? (request.getHash E.toHashing) ≠ none ∨
      ∃ keyID, NamesKey E request.address keyID
  | .pubkeyResponse _ => True

variable {E wallet nTime chat} {message : CChatMessage} {ckey : CKey} {plaintext : Bytes}

/-! ## Decryption -/

/-- The end of a text written into a buffer with room for it. -/
theorem set_overwrite {n : ℕ} (buffer : ByteArrayN n) {data : Bytes} (h : data.length ≤ n)
    (hroom : data.length < n) :
    (buffer.overwrite data h).val.set data.length 0 =
      data ++ 0 :: buffer.val.drop (data.length + 1) := by
  have hlt : data.length < buffer.val.length := by rw [buffer.property]; exact hroom
  have hdrop : buffer.val.drop data.length = _ := List.drop_eq_getElem_cons hlt
  rw [ByteArrayN.overwrite, List.set_append_right _ _ le_rfl, hdrop, Nat.sub_self, List.set_cons_zero]

theorem decrypt_eq_ok {m : CChatMessage} {n : ℕ} :
    message.decrypt E = .ok (m, n) ↔
      ∃ plaintext, ∃ h : plaintext.length ≤ MESSAGE_BUFFER_LENGTH,
        0 ≤ toInt message.cipher_length.toNat ∧
        toInt message.cipher_length.toNat ≤ message.vchEncryptedMessage.length ∧
        E.aesDecrypt message.key (message.vchEncryptedMessage.take
          (toInt message.cipher_length.toNat).toNat) = some plaintext ∧
        m = { message with plainText := message.plainText.overwrite plaintext h } ∧
        n = plaintext.length := by
  unfold CChatMessage.decrypt
  rw [guard_eq_ok, guard_eq_ok]
  constructor
  · rintro ⟨hsign, hread, h⟩
    split at h
    · cases h
    · next plaintext hplain =>
      split_ifs at h with hfits
      cases h
      exact ⟨plaintext, hfits, by omega, by omega, hplain, rfl, rfl⟩
  · rintro ⟨plaintext, hfits, hsign, hread, hplain, rfl, rfl⟩
    refine ⟨by omega, by omega, ?_⟩
    rw [hplain]
    exact dif_pos hfits

theorem terminate_eq_ok {m : CChatMessage} {n : ℕ} :
    message.terminate n = .ok m ↔
      n < MESSAGE_BUFFER_LENGTH ∧ m = { message with plainText := ⟨message.plainText.val.set n 0, by
        rw [List.length_set, message.plainText.property]⟩ } := by
  unfold CChatMessage.terminate
  split_ifs with h
  · simp [h, eq_comm]
  · simp [h]

/-- **A message is shown** exactly if it decrypts: the text is in the buffer then, with its
terminator. -/
theorem showMessage_returns_iff {buffer : Bytes} :
    (∃ shown, showMessage E ckey message = .ok shown ∧ shown.plainText.val = buffer) ↔
      ∃ plaintext, Decrypts E ckey message plaintext ∧
        buffer = plaintext ++ 0 :: message.plainText.val.drop (plaintext.length + 1) := by
  obtain ⟨addrFrom, haddr⟩ := encodeDestination_returns E E.prefixes
    (.keyID (message.publicKey.getID E)) false
  unfold showMessage
  rw [haddr]
  constructor
  · rintro ⟨shown, h, rfl⟩
    obtain ⟨_, ⟨rfl⟩, h⟩ := bind_eq_ok.mp h
    obtain ⟨⟨m, n⟩, hdecrypt, hterminate⟩ := bind_eq_ok.mp h
    obtain ⟨plaintext, hfits, hsign, hread, hplain, rfl, rfl⟩ := decrypt_eq_ok.mp hdecrypt
    obtain ⟨hroom, rfl⟩ := terminate_eq_ok.mp hterminate
    exact ⟨plaintext, ⟨hsign, hread, hplain, hroom⟩, set_overwrite message.plainText hfits hroom⟩
  · rintro ⟨plaintext, ⟨hsign, hread, hplain, hroom⟩, rfl⟩
    have hfits := Nat.le_of_lt hroom
    refine ⟨_, bind_eq_ok.mpr ⟨addrFrom, rfl, bind_eq_ok.mpr ⟨(_, _),
      decrypt_eq_ok.mpr ⟨plaintext, hfits, hsign, hread, hplain, rfl, rfl⟩,
      terminate_eq_ok.mpr ⟨hroom, rfl⟩⟩⟩, ?_⟩
    exact set_overwrite message.plainText hfits hroom

theorem keyIDOf_eq_ok {address : StdString} {keyID : CKeyID} :
    keyIDOf E address = .ok keyID ↔ NamesKey E address keyID := by
  unfold keyIDOf NamesKey
  rw [bind_eq_ok]
  constructor
  · rintro ⟨dest, hdest, h⟩
    cases dest with
    | keyID id =>
      cases h
      exact hdest
    | noDestination => cases h
    | scriptID id => cases h
  · intro h
    exact ⟨_, h, rfl⟩

/-! ## The handlers -/

/-- **A chat message is handled** exactly if it is harmless. -/
theorem handleReceivedChatMessage_returns_iff :
    (∃ ret, chat.handleReceivedChatMessage E wallet nTime message = .ok ret) ↔
      Harmless E wallet chat (.chatMessage message) := by
  unfold handleReceivedChatMessage alreadyReceived Harmless
  cases hfind : chat.mapMessagesReceived.find? (message.getHash E) with
  | some v => simp [hfind]
  | none =>
    simp only [hfind, ne_eq, not_true_eq_false, false_or]
    constructor
    · rintro ⟨ret, h⟩
      obtain ⟨keyID, hkey, h⟩ := bind_eq_ok.mp h
      refine ⟨keyID, keyIDOf_eq_ok.mp hkey, fun ckey hckey => ?_⟩
      rw [hckey] at h
      obtain ⟨shown, hshown, -⟩ := bind_eq_ok.mp h
      obtain ⟨plaintext, hplain, -⟩ := showMessage_returns_iff.mp ⟨shown, hshown, rfl⟩
      exact ⟨plaintext, hplain⟩
    · rintro ⟨keyID, hkey, hdecrypts⟩
      rw [keyIDOf_eq_ok.mpr hkey]
      cases hckey : wallet.getKey keyID with
      | none => exact ⟨_, by simp only [Except.bind, hckey]; rfl⟩
      | some ckey =>
        obtain ⟨plaintext, hplain⟩ := hdecrypts ckey hckey
        obtain ⟨shown, hshown, -⟩ := showMessage_returns_iff.mpr ⟨plaintext, hplain, rfl⟩
        exact ⟨_, by simp only [Except.bind, hckey, hshown]; rfl⟩

/-- **A request is handled** exactly if it is harmless. -/
theorem handlePubkeyRequest_returns_iff {request : CChatPubkeyExchange} :
    (∃ ret, chat.handlePubkeyRequest E wallet nTime request = .ok ret) ↔
      Harmless E wallet chat (.pubkeyRequest request) := by
  unfold handlePubkeyRequest alreadyReceived Harmless
  cases hfind : chat.mapMessagesReceived.find? (request.getHash E) with
  | some v => simp [hfind]
  | none =>
    simp only [hfind, ne_eq, not_true_eq_false, false_or]
    constructor
    · rintro ⟨ret, h⟩
      obtain ⟨keyID, hkey, -⟩ := bind_eq_ok.mp h
      exact ⟨keyID, keyIDOf_eq_ok.mp hkey⟩
    · rintro ⟨keyID, hkey⟩
      rw [keyIDOf_eq_ok.mpr hkey]
      simp only [Except.bind]
      split_ifs
      · exact ⟨_, rfl⟩
      · exact ⟨_, rfl⟩

/-- **Every response is handled.** -/
theorem handlePubkeyResponse_returns (response : CChatPubkeyExchange) :
    ∃ ret, chat.handlePubkeyResponse E nTime response = .ok ret := by
  unfold handlePubkeyResponse
  split
  · exact ⟨_, rfl⟩
  · by_cases hvalid : response.pkey.isValid = true
    · exact ⟨_, if_pos hvalid⟩
    · exact ⟨_, if_neg hvalid⟩

end CChat

open CChat

/-- **What the handlers survive.** In every state of the chat and of the wallet, a handler
returns for exactly the harmless messages of a peer. -/
theorem handle_returns_iff (E : ChatEnv) (wallet : ChatWallet) (nTime : ℤ) (chat : CChat)
    (sent : PeerMessage) :
    (∃ ret, chat.handle E wallet nTime sent = .ok ret) ↔ Harmless E wallet chat sent := by
  cases sent with
  | chatMessage message => exact handleReceivedChatMessage_returns_iff
  | pubkeyRequest request => exact handlePubkeyRequest_returns_iff
  | pubkeyResponse response => exact iff_of_true (handlePubkeyResponse_returns response) trivial

/-- **A peer can end the process**: the handler of a request without an address uses a null
pointer. -/
theorem not_handle_returns :
    ¬ ∀ (E : ChatEnv) (wallet : ChatWallet) (nTime : ℤ) (chat : CChat) (sent : PeerMessage),
      (∀ key ciphertext plaintext, E.aesDecrypt key ciphertext = some plaintext →
        plaintext.length ≤ ciphertext.length) →
      ∃ ret, chat.handle E wallet nTime sent = .ok ret := by
  intro hall
  let wallet : ChatWallet := ⟨[], by decide, fun _ => none, fun _ => none⟩
  have hlength : ∀ key ciphertext plaintext, ChatSample.env.aesDecrypt key ciphertext =
      some plaintext → plaintext.length ≤ ciphertext.length := by
    intro key ciphertext plaintext h
    exact ChatSample.length_unpad_le h
  obtain ⟨ret, hret⟩ := hall ChatSample.env wallet 0 .initial (.pubkeyRequest (.request [])) hlength
  have hfault : (initial.handle ChatSample.env wallet 0
      (.pubkeyRequest (.request []))).isOk = false := by decide +kernel
  rw [hret] at hfault
  exact Bool.noConfusion hfault

end Passion
