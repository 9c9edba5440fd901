import Mathlib.Data.List.TakeWhile
import Passion.Chat.Handlers

/-!
# From the sender to the recipient

A sender takes one of its keys, derives a secret with the public key of the destination and encrypts
the text into a buffer; the recipient derives the same secret, decrypts, and reads the text as a C
string. With a wallet of one key the choice of a key divides by zero, a text of 1024 bytes or more
does not fit, and a text with a null byte is cut there.
-/

namespace Passion

open List Except UInt64

/-- **What is assumed of keys and cipher**: public keys are valid, both sides of an exchange
derive one secret, and encryption pads to whole blocks and can be undone. -/
structure ChatEnv.Laws (E : ChatEnv) : Prop where
  isValid : ∀ key, (E.getPubKey key).isValid = true
  agree : ∀ a b, E.ecdh (E.getPubKey a).vch b = E.ecdh (E.getPubKey b).vch a
  length_aesEncrypt : ∀ key text, (E.aesEncrypt key text).length = 16 * (text.length / 16 + 1)
  decrypt_encrypt : ∀ key text, E.aesDecrypt key (E.aesEncrypt key text) = some text

namespace CChat

variable (E : ChatEnv) (wallet : ChatWallet) (nTime : ℤ) (chat : CChat) (message : CChatMessage)
  (destKey : CKey)

/-- A node with the key of the destination reads a text from a message: it reads it from the
network and handles it as one it has not received before. -/
def Reads (m : CChatMessage) (text : StdString) : Prop :=
  ∀ (recipient : ChatWallet) (nRead nHandled : ℤ) (chat' : CChat),
    recipient.getKey ((E.getPubKey destKey).getID E.toKeyOps) = some destKey →
    chat'.mapMessagesReceived.find? ((m.received nRead).getHash E) = none →
    ∃ chat'' shown, chat'.handleReceivedChatMessage E recipient nHandled (m.received nRead) =
        .ok (chat'', [.notifyChatMessage shown]) ∧ shown.getDecryptedMessage = .ok text

/-- **A message is delivered**: sending it stays within the keys and the buffers, and what is
sent if it returns true is read as the text. -/
def Delivers : Prop :=
  ∃ sent output, chat.sendMessageToRecipient E wallet nTime message = .ok (sent, output) ∧
    (sent = true → ∃ m, output = [.relayChatMessage m] ∧ Reads E destKey m message.strMessage)

/-- There are two keys to choose from, and if the chosen one can be used, the text fits into
the buffer with its terminator and has no null byte. -/
structure Deliverable : Prop where
  keys : 2 ≤ wallet.keys.length
  text : ∀ keyid cryptKey secret,
    wallet.keys[(toUInt64 nTime).toNat % (wallet.keys.length - 1)]? = some keyid →
    wallet.getKey keyid = some cryptKey →
    E.ecdh (E.getPubKey destKey).vch cryptKey = some secret →
      message.strMessage.length < MESSAGE_BUFFER_LENGTH ∧ 0 ∉ message.strMessage

variable {E wallet nTime chat message destKey}

/-! ## The choice of a key -/

/-- With one key the remainder is taken by zero. -/
theorem selectKey_of_length_eq_one (h : wallet.keys.length = 1) :
    ∃ e, selectKey wallet nTime = .error e := by
  unfold selectKey
  rw [h]
  exact ⟨_, rfl⟩

variable (nTime) in
/-- With more keys one of them is taken. -/
theorem selectKey_of_two_le (h : 2 ≤ wallet.keys.length) :
    ∃ keyid, wallet.keys[(toUInt64 nTime).toNat % (wallet.keys.length - 1)]? = some keyid ∧
      selectKey wallet nTime = .ok keyid := by
  have hsize := wallet.size_lt
  have hdivisor : (wallet.keys.length + 2 ^ 64 - 1) % 2 ^ 64 = wallet.keys.length - 1 := by omega
  have hlt : (toUInt64 nTime).toNat % (wallet.keys.length - 1) < wallet.keys.length := by
    have := Nat.mod_lt (toUInt64 nTime).toNat (by omega : wallet.keys.length - 1 > 0)
    omega
  refine ⟨_, getElem?_eq_getElem hlt, ?_⟩
  unfold selectKey
  rw [hdivisor, if_neg (by omega), getElem?_eq_getElem hlt]

/-! ## Encryption -/

variable {n : ℕ}

theorem toInt_of_lt (h : n < 2 ^ 31) : toInt n = n :=
  MachineNumber.toInt32_of_range (by omega) (by omega)

/-- The bytes of a text that `encrypt` is told of. -/
def told (text : StdString) : StdString := text.take (toInt text.length).toNat

variable {m : CChatMessage}

/-- What `encrypt` makes of a text: the bytes it is told of, padded, in the vector. -/
theorem encrypt_eq_ok {text : Bytes} :
    message.encrypt E text = .ok (m, n) ↔
      0 ≤ toInt text.length ∧
      ∃ h : (E.aesEncrypt message.key (told text)).length ≤ MESSAGE_BUFFER_LENGTH,
        m = { message with
          cipherText := message.cipherText.overwrite _ h
          vchEncryptedMessage := (message.cipherText.overwrite _ h).val } ∧
        n = (E.aesEncrypt message.key (told text)).length := by
  unfold CChatMessage.encrypt told
  rw [guard_eq_ok]
  refine and_congr (by omega) ?_
  dsimp only
  split_ifs with h
  · simp [h, eq_comm]
  · simp [h]

/-- A terminated text is read up to its first null byte. -/
theorem takeWhile_terminated (text rest : Bytes) :
    (text ++ 0 :: rest).takeWhile (· != 0) = text.takeWhile (· != 0) := by
  induction text with
  | nil => simp
  | cons c text ih =>
    rw [cons_append, takeWhile_cons, takeWhile_cons, ih]

theorem getDecryptedMessage_eq {shown : CChatMessage} {text rest : Bytes}
    (h : shown.plainText.val = text ++ 0 :: rest) :
    shown.getDecryptedMessage = .ok (text.takeWhile (· != 0)) := by
  unfold CChatMessage.getDecryptedMessage
  rw [h, if_neg (by simp), takeWhile_terminated]

theorem take_overwrite (buffer : ByteArrayN n) {data : Bytes} (h : data.length ≤ n) :
    (buffer.overwrite data h).val.take data.length = data :=
  take_left' rfl

variable {secret : Uint256} {cryptKey : CKey}

/-- **What the recipient decrypts** is what the sender encrypted. -/
theorem decrypts_received (hlaws : E.Laws) {nRead : ℤ}
    (hsecret : E.ecdh (E.getPubKey destKey).vch cryptKey = some secret)
    (hkey : message.key = secret) (hpub : message.publicKey = E.getPubKey cryptKey)
    (h : message.encrypt E message.strMessage = .ok (m, n)) :
    Decrypts E destKey ({ m with cipher_length := ofNat n }.received nRead)
      (told message.strMessage) := by
  obtain ⟨-, hfits, rfl, rfl⟩ := encrypt_eq_ok.mp h
  have hread : (E.ecdh message.publicKey.vch destKey).getD BaseUint.zero = message.key := by
    rw [hpub, ← hlaws.agree, hsecret, hkey, Option.getD_some]
  have hdecrypt := hlaws.decrypt_encrypt message.key (told message.strMessage)
  have hpadded := hlaws.length_aesEncrypt message.key (told message.strMessage)
  set cipher := E.aesEncrypt message.key (told message.strMessage)
  have hle : cipher.length ≤ 1024 := hfits
  -- the length of the ciphertext survives both conversions
  have hcipher : toInt (ofNat cipher.length).toNat = (cipher.length : ℤ) := by
    rw [toNat_ofNat_of_lt' (by simp only [size]; omega)]
    exact toInt_of_lt (by omega)
  refine ⟨?_, ?_, ?_, ?_⟩
  · show 0 ≤ toInt (ofNat cipher.length).toNat
    rw [hcipher]
    omega
  · show toInt (ofNat cipher.length).toNat ≤ ((message.cipherText.overwrite _ hfits).val.length : ℤ)
    rw [hcipher, (message.cipherText.overwrite _ hfits).property, MESSAGE_BUFFER_LENGTH]
    omega
  · show E.aesDecrypt ((E.ecdh message.publicKey.vch destKey).getD BaseUint.zero)
      ((message.cipherText.overwrite _ hfits).val.take
        (toInt (ofNat cipher.length).toNat).toNat) = some (told message.strMessage)
    rw [hread, hcipher, Int.toNat_natCast, take_overwrite, hdecrypt]
  · show (told message.strMessage).length < 1024
    omega

/-! ## Sending and reading -/

variable (E) in
/-- What a message becomes before it is encrypted. -/
def withSecret (cryptKey : CKey) (secret : Uint256) (message : CChatMessage) : CChatMessage :=
  { message with publicKey := E.getPubKey cryptKey, key := secret }

variable (hlaws : E.Laws)
variable (hstored : chat.mapAddressPubkey message.strDestination = some (E.getPubKey destKey))
variable (hname : NamesKey E message.strDestination ((E.getPubKey destKey).getID E))

include hlaws hstored in
theorem sendMessageToRecipient_of_selectKey :
    chat.sendMessageToRecipient E wallet nTime message =
      (selectKey wallet nTime).bind fun keyid =>
        match wallet.getKey keyid with
        | none => .ok (false, [])
        | some cryptKey =>
          match E.ecdh (E.getPubKey destKey).vch cryptKey with
          | none => .ok (false, [])
          | some secret =>
            ((withSecret E cryptKey secret message).encrypt E message.strMessage).bind fun (m, n) =>
              .ok (true, [.relayChatMessage { m with cipher_length := ofNat n }]) := by
  unfold sendMessageToRecipient getPubKeyFromAddress withSecret
  rw [hstored]
  refine (if_neg ?_).trans rfl
  simp [hlaws.isValid]

include hlaws hstored in
/-- **A message whose key can be used is encrypted and sent.** -/
theorem sendMessageToRecipient_eq {keyid : CKeyID}
    (hselect : selectKey wallet nTime = .ok keyid) (hkey : wallet.getKey keyid = some cryptKey)
    (hsecret : E.ecdh (E.getPubKey destKey).vch cryptKey = some secret) :
    chat.sendMessageToRecipient E wallet nTime message =
      ((withSecret E cryptKey secret message).encrypt E message.strMessage).bind fun (m, n) =>
        .ok (true, [.relayChatMessage { m with cipher_length := ofNat n }]) := by
  rw [sendMessageToRecipient_of_selectKey hlaws hstored, hselect, ok_bind]
  simp [hkey, hsecret]

include hlaws hname in
/-- **What the recipient reads**: the bytes that were encrypted, up to the first null byte. -/
theorem reads_of_encrypt (hsecret : E.ecdh (E.getPubKey destKey).vch cryptKey = some secret)
    (h : (withSecret E cryptKey secret message).encrypt E message.strMessage = .ok (m, n)) :
    Reads E destKey { m with cipher_length := ofNat n }
      ((told message.strMessage).takeWhile (· != 0)) := by
  intro recipient nRead nHandled chat' hrecipient hnew
  have hdecrypts : Decrypts E destKey ({ m with cipher_length := ofNat n }.received nRead)
      (told (withSecret E cryptKey secret message).strMessage) :=
    decrypts_received hlaws hsecret rfl rfl h
  obtain ⟨shown, hshown, hbuffer⟩ := showMessage_returns_iff.mpr ⟨_, hdecrypts, rfl⟩
  have hdest : m.strDestination = message.strDestination := by
    obtain ⟨-, hfits, rfl, -⟩ := encrypt_eq_ok.mp h
    rfl
  have hkeyID : keyIDOf E ({ m with cipher_length := ofNat n }.received nRead).strDestination =
      .ok ((E.getPubKey destKey).getID E) :=
    keyIDOf_eq_ok.mpr (hdest ▸ hname)
  unfold handleReceivedChatMessage alreadyReceived
  simp only [hnew, hkeyID, hrecipient, hshown, ok_bind]
  exact ⟨_, _, rfl, getDecryptedMessage_eq hbuffer⟩

variable {text : StdString}

/-- The whole text is read exactly if it fits and has no null byte. -/
theorem takeWhile_told_iff (hroom : (told text).length < MESSAGE_BUFFER_LENGTH) :
    (told text).takeWhile (· != 0) = text ↔ text.length < MESSAGE_BUFFER_LENGTH ∧ 0 ∉ text := by
  constructor
  · intro h
    refine ⟨?_, fun hzero => ?_⟩
    · have hle := ( takeWhile_prefix (l := told text) (· != 0)).length_le
      rw [h] at hle
      omega
    · rw [← h] at hzero
      simpa using mem_takeWhile_imp hzero
  · rintro ⟨hlt, hzero⟩
    have hall : told text = text := by
      have hlt' : text.length < 1024 := hlt
      rw [told, toInt_of_lt (by omega), Int.toNat_natCast, take_length]
    rw [hall, takeWhile_eq_self_iff]
    intro c hc
    simpa using ne_of_mem_of_not_mem hc hzero

include hlaws in
theorem length_told_lt_of_encrypt (h : message.encrypt E text = .ok (m, n)) :
    (told text).length < MESSAGE_BUFFER_LENGTH := by
  obtain ⟨-, hfits, -, -⟩ := encrypt_eq_ok.mp h
  have hle : (E.aesEncrypt message.key (told text)).length ≤ 1024 := hfits
  rw [hlaws.length_aesEncrypt] at hle
  show (told text).length < 1024
  omega

include hlaws in
/-- A text that fits is encrypted. -/
theorem encrypt_returns (h : text.length < MESSAGE_BUFFER_LENGTH) :
    ∃ m n, message.encrypt E text = .ok (m, n) := by
  have hlt : text.length < 1024 := h
  have hlen : (told text).length ≤ text.length := by simp [told]
  have hfits : (E.aesEncrypt message.key (told text)).length ≤ 1024 := by
    rw [hlaws.length_aesEncrypt]
    omega
  have hsign : 0 ≤ toInt text.length := by
    rw [toInt_of_lt (by omega)]
    omega
  exact ⟨_, _, encrypt_eq_ok.mpr ⟨hsign, hfits, rfl, rfl⟩⟩

/-- A message is read as one text. -/
theorem Reads.unique {text text' : StdString} (h : Reads E destKey m text)
    (h' : Reads E destKey m text') : text = text' := by
  let recipient : ChatWallet := ⟨[], by decide, fun _ => some destKey, fun _ => none⟩
  obtain ⟨_, shown, hret, htext⟩ := h recipient 0 0 .initial rfl rfl
  obtain ⟨_, shown', hret', htext'⟩ := h' recipient 0 0 .initial rfl rfl
  obtain ⟨-, hshown⟩ := Prod.mk.inj (ok.inj (hret.symm.trans hret'))
  obtain rfl := ChatOutput.notifyChatMessage.inj (cons.inj hshown).1
  exact ok.inj (htext.symm.trans htext')

include hlaws hstored hname

theorem Delivers.deliverable (hkeys : wallet.keys ≠ [])
    (h : Delivers E wallet nTime chat message destKey) :
    Deliverable E wallet nTime message destKey := by
  obtain ⟨sent, output, hsend, hreads⟩ := h
  have htwo : 2 ≤ wallet.keys.length := by
    by_contra hlt
    have hpos := length_pos_iff.mpr hkeys
    obtain ⟨e, he⟩ : ∃ e, selectKey wallet nTime = .error e :=
      selectKey_of_length_eq_one (by omega)
    rw [sendMessageToRecipient_of_selectKey hlaws hstored, he] at hsend
    cases hsend
  refine ⟨htwo, fun keyid cryptKey secret hkeyid hkey hsecret => ?_⟩
  obtain ⟨keyid', hkeyid', hselect⟩ := selectKey_of_two_le nTime htwo
  obtain rfl := Option.some.inj (hkeyid.symm.trans hkeyid')
  rw [sendMessageToRecipient_eq hlaws hstored hselect hkey hsecret] at hsend
  obtain ⟨⟨m, n⟩, hencrypt, hsent⟩ := bind_eq_ok.mp hsend
  cases hsent
  obtain ⟨m', hm', hread⟩ := hreads rfl
  obtain rfl := ChatOutput.relayChatMessage.inj (cons.inj hm').1
  have htext := (reads_of_encrypt hlaws hname hsecret hencrypt).unique hread
  exact (takeWhile_told_iff (length_told_lt_of_encrypt hlaws hencrypt)).mp htext

theorem Deliverable.delivers (h : Deliverable E wallet nTime message destKey) :
    Delivers E wallet nTime chat message destKey := by
  obtain ⟨htwo, htext⟩ := h
  obtain ⟨keyid, hkeyid, hselect⟩ := selectKey_of_two_le nTime htwo
  -- a key that cannot be used ends the attempt with false
  cases hkey : wallet.getKey keyid with
  | none =>
    refine ⟨false, [], ?_, by simp⟩
    rw [sendMessageToRecipient_of_selectKey hlaws hstored, hselect, ok_bind]
    simp [hkey]
  | some cryptKey =>
    cases hsecret : E.ecdh (E.getPubKey destKey).vch cryptKey with
    | none =>
      refine ⟨false, [], ?_, by simp⟩
      rw [sendMessageToRecipient_of_selectKey hlaws hstored, hselect, ok_bind]
      simp [hkey, hsecret]
    | some secret =>
      have hgood := htext keyid cryptKey secret hkeyid hkey hsecret
      obtain ⟨m, n, hencrypt⟩ : ∃ m n, (withSecret E cryptKey secret message).encrypt E
          message.strMessage = .ok (m, n) := encrypt_returns hlaws hgood.1
      refine ⟨true, [.relayChatMessage { m with cipher_length := ofNat n }], ?_, fun _ =>
        ⟨_, rfl, ?_⟩⟩
      · rw [sendMessageToRecipient_eq hlaws hstored hselect hkey hsecret, hencrypt, ok_bind]
      · have hread := reads_of_encrypt hlaws hname hsecret hencrypt
        rwa [(takeWhile_told_iff (length_told_lt_of_encrypt hlaws hencrypt)).mpr hgood] at hread

end CChat

open CChat

/-- **When a message is delivered.** With one key at least in the wallet and the right public
key stored for the destination, sending stays within its bounds and the recipient reads the
text, exactly if there are two keys and, where the chosen one can be used, the text is shorter
than the buffer and has no null byte. -/
theorem delivers_iff {E : ChatEnv} (hlaws : E.Laws) {wallet : ChatWallet} {nTime : ℤ} {chat : CChat}
    {message : CChatMessage} {destKey : CKey} (hkeys : wallet.keys ≠ [])
    (hstored : chat.mapAddressPubkey message.strDestination = some (E.getPubKey destKey))
    (hname : NamesKey E message.strDestination ((E.getPubKey destKey).getID E.toKeyOps)) :
    Delivers E wallet nTime chat message destKey ↔
      Deliverable E wallet nTime message destKey :=
  ⟨fun h => h.deliverable hlaws hstored hname hkeys, fun h => h.delivers hlaws hstored hname⟩

namespace ChatSample

theorem unpad_pad (text : Bytes) : unpad (pad text) = some text := by
  have hlast : (pad text).getLast? = some (UInt8.ofNat (16 - text.length % 16)) := by
    rw [pad, getLast?_append, getLast?_replicate, if_neg (by omega), Option.some_or]
  have hbyte : (UInt8.ofNat (16 - text.length % 16)).toNat = 16 - text.length % 16 :=
    UInt8.toNat_ofNat_of_lt' (by simp only [UInt8.size]; omega)
  unfold unpad
  rw [hlast]
  simp only [hbyte]
  rw [if_pos (by omega)]
  simp [pad]

theorem env_laws : env.Laws where
  isValid key := by
    simp [env, CPubKey.ofBytes, CPubKey.isValid, pubKeyValidSize, pubKeyLen, key.keydata.property]
  agree a b := by
    simp [env, CPubKey.ofBytes, pubKeyValidSize, pubKeyLen, a.keydata.property, b.keydata.property,
      Nat.add_comm]
  length_aesEncrypt key text := by
    simp only [env, pad, length_append, length_replicate]
    omega
  decrypt_encrypt key text := unpad_pad text

/-- The key of the destination and its address. -/
def destKey : CKey := ⟨⟨List.replicate 32 7, rfl⟩, true⟩

def address : StdString :=
  match encodeDestination env.toHashing env.prefixes
    (.keyID ((env.getPubKey destKey).getID env.toKeyOps)) false with
  | .ok str => str
  | .error _ => []

/-- A wallet with two keys. -/
def wallet : ChatWallet where
  keys := [⟨List.replicate 20 1, rfl⟩, ⟨List.replicate 20 2, rfl⟩]
  size_lt := by decide
  getKey := fun _ => some ⟨⟨List.replicate 32 3, rfl⟩, true⟩
  getPubKey := fun _ => none

/-- A chat that knows the key of the destination. -/
def chat : CChat := { CChat.initial with mapAddressPubkey := fun _ => some (env.getPubKey destKey) }

end ChatSample

open ChatSample in
/-- A text of two bytes is delivered. -/
theorem delivers_two_bytes : Delivers env wallet 0 chat (.create 0 address [104, 105]) destKey :=
  (delivers_iff env_laws (by decide) rfl (by unfold NamesKey; decide +kernel)).mpr
    ⟨by decide, fun _ _ _ _ _ _ => by decide⟩

open ChatSample in
/-- **A text can arrive short**: of a text with a null byte the recipient reads what stands
before it. -/
theorem not_delivers :
    ¬ ∀ (E : ChatEnv), E.Laws → ∀ (wallet : ChatWallet) (nTime : ℤ) (chat : CChat)
      (message : CChatMessage) (destKey : CKey), wallet.keys ≠ [] →
      chat.mapAddressPubkey message.strDestination = some (E.getPubKey destKey) →
      NamesKey E message.strDestination ((E.getPubKey destKey).getID E.toKeyOps) →
      Delivers E wallet nTime chat message destKey := by
  intro hall
  let message : CChatMessage := .create 0 address [104, 0, 105]
  have hname : NamesKey env message.strDestination ((env.getPubKey destKey).getID env) := by
    unfold NamesKey
    decide +kernel
  have hdelivers := hall env env_laws wallet 0 chat message destKey (by decide) rfl hname
  have hdeliverable := hdelivers.deliverable env_laws rfl hname (by decide)
  have hfirst : wallet.keys[(toUInt64 0).toNat % (wallet.keys.length - 1)]? =
      some ⟨replicate 20 1, rfl⟩ := by decide +kernel
  exact (hdeliverable.text _ _ _ hfirst rfl rfl).2 (by decide)

end Passion
