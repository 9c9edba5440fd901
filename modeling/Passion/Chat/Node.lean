import Passion.Common.MachineNumber
import Passion.Primitives.Base58
import Passion.Common.OrderedMap

/-!
# Chat messages

`CChatMessage` and `CChatPubkeyExchange` of `chat.h` with the encryption of `chat.cpp`. A message
goes over the network as seven of its fields. The text is encrypted with AES-256-CBC into a buffer
of fixed size, which is sent whole. The functions of OpenSSL are not opened.
-/

namespace Passion

/-- `MESSAGE_BUFFER_LENGTH`. -/
def MESSAGE_BUFFER_LENGTH : ℕ := 1024

/-- What the chat uses of the rest of the program. -/
structure ChatEnv extends Hashing, KeyOps where
  prefixes : Base58Prefixes
  /-- `EVP_EncryptUpdate` and `EVP_EncryptFinal_ex`: the ciphertext of a byte string. -/
  aesEncrypt : Uint256 → Bytes → Bytes
  /-- `EVP_DecryptUpdate` and `EVP_DecryptFinal_ex`: nothing where the padding is bad. -/
  aesDecrypt : Uint256 → Bytes → Option Bytes

instance : CoeOut ChatEnv Hashing := ⟨ChatEnv.toHashing⟩

instance : CoeOut ChatEnv KeyOps := ⟨ChatEnv.toKeyOps⟩

/-- The conversion of an unsigned number to `int`. -/
def toInt (n : ℕ) : ℤ := MachineNumber.toInt32 n

/-- The conversion of `GetTime()` to `uint64_t`. -/
def toUInt64 (nTime : ℤ) : UInt64 := UInt64.ofNat (nTime % 2 ^ 64).toNat

/-- `CChatMessage`. -/
structure CChatMessage where
  isCrypted : Bool
  isRelayed : Bool
  isPubKeyRequested : Bool
  timestamp : UInt64
  strDestination : StdString
  strMessage : StdString
  strMessageFrom : StdString
  vchEncryptedMessage : Bytes
  cipherText : ByteArrayN MESSAGE_BUFFER_LENGTH
  plainText : ByteArrayN MESSAGE_BUFFER_LENGTH
  cipher_length : UInt64
  key : Uint256
  publicKey : CPubKey
  deriving DecidableEq

/-- A buffer after data that fits has been written to its start. -/
def ByteArrayN.overwrite {n : ℕ} (buffer : ByteArrayN n) (data : Bytes) (h : data.length ≤ n) :
    ByteArrayN n :=
  ⟨data ++ buffer.val.drop data.length, by
    rw [List.length_append, List.length_drop, buffer.property]
    omega⟩

namespace CChatMessage

variable (E : ChatEnv)

/-- `CChatMessage()`, at the time `GetTime()`. -/
def default (nTime : ℤ) : CChatMessage where
  isCrypted := false
  isRelayed := false
  isPubKeyRequested := false
  timestamp := toUInt64 nTime
  strDestination := []
  strMessage := []
  strMessageFrom := []
  vchEncryptedMessage := []
  cipherText := .zeros MESSAGE_BUFFER_LENGTH
  plainText := .zeros MESSAGE_BUFFER_LENGTH
  cipher_length := 0
  key := BaseUint.zero
  publicKey := .invalid

/-- `CChatMessage(dest, message)`. -/
def create (nTime : ℤ) (dest message : StdString) : CChatMessage :=
  { default nTime with strDestination := dest, strMessage := message }

/-- The serialization. -/
def serialize (m : CChatMessage) : Bytes :=
  [m.isCrypted.toUInt8, m.isRelayed.toUInt8] ++ varBytes m.strDestination ++
    varBytes m.vchEncryptedMessage ++ Bytes.ofNatLE 8 m.cipher_length.toNat ++
    m.publicKey.serialize ++ Bytes.ofNatLE 8 m.timestamp.toNat

/-- `GetHash`. -/
def getHash (m : CChatMessage) : Uint256 := E.hash m.serialize

/-- The message a peer reads from the serialization of `m` at the time `GetTime()`: the fields
that are serialized, in a message made by `CChatMessage()`. -/
def received (nTime : ℤ) (m : CChatMessage) : CChatMessage :=
  { default nTime with
    isCrypted := m.isCrypted
    isRelayed := m.isRelayed
    strDestination := m.strDestination
    vchEncryptedMessage := m.vchEncryptedMessage
    cipher_length := m.cipher_length
    publicKey := m.publicKey
    timestamp := m.timestamp }

/-- `encrypt`: the message with the buffer and the vector written, and the length of the
ciphertext. An error of OpenSSL ends in `handleErrors`, which aborts. -/
def encrypt (plaintext : Bytes) (m : CChatMessage) : Result (CChatMessage × ℕ) :=
  if toInt plaintext.length < 0 then .error (.assertion "handleErrors()")
  else
    let ciphertext := E.aesEncrypt m.key (plaintext.take (toInt plaintext.length).toNat)
    if h : ciphertext.length ≤ MESSAGE_BUFFER_LENGTH then
      let cipherText := m.cipherText.overwrite ciphertext h
      .ok ({ m with cipherText := cipherText, vchEncryptedMessage := cipherText.val },
        ciphertext.length)
    else .error (.outOfBounds "cipherText")

/-- `decrypt` of the first `cipher_length` bytes of the encrypted message into `plainText`,
and the length of the text. -/
def decrypt (m : CChatMessage) : Result (CChatMessage × ℕ) :=
  let ciphertext_len := toInt m.cipher_length.toNat
  if ciphertext_len < 0 then .error (.assertion "handleErrors()")
  else if m.vchEncryptedMessage.length < ciphertext_len.toNat then
    .error (.outOfBounds "vchEncryptedMessage")
  else match E.aesDecrypt m.key (m.vchEncryptedMessage.take ciphertext_len.toNat) with
    | none => .error (.assertion "handleErrors()")
    | some plaintext =>
      if h : plaintext.length ≤ MESSAGE_BUFFER_LENGTH then
        .ok ({ m with plainText := m.plainText.overwrite plaintext h }, plaintext.length)
      else .error (.outOfBounds "plainText")

/-- `plainText[n] = '\0'`. -/
def terminate (n : ℕ) (m : CChatMessage) : Result CChatMessage :=
  if n < MESSAGE_BUFFER_LENGTH then
    .ok { m with plainText := ⟨m.plainText.val.set n 0, by
      rw [List.length_set, m.plainText.property]⟩ }
  else .error (.outOfBounds "plainText[decryptedtext_len]")

/-- `GetDecryptedMessage`: the C string in `plainText`. -/
def getDecryptedMessage (m : CChatMessage) : Result StdString :=
  if m.plainText.val.all (· != 0) then .error (.outOfBounds "plainText")
  else .ok (m.plainText.val.takeWhile (· != 0))

end CChatMessage

/-- `CChatPubkeyExchange`. -/
structure CChatPubkeyExchange where
  pkey : CPubKey
  address : StdString
  deriving DecidableEq

namespace CChatPubkeyExchange

/-- A request as `ProcessMessages` makes it, with `SetAddress`. -/
def request (address : StdString) : CChatPubkeyExchange := ⟨.invalid, address⟩

/-- The serialization. -/
def serialize (x : CChatPubkeyExchange) : Bytes := x.pkey.serialize ++ varBytes x.address

/-- `GetHash`. -/
def getHash (H : Hashing) (x : CChatPubkeyExchange) : Uint256 := H.hash x.serialize

end CChatPubkeyExchange

/-! ## A sample -/

namespace ChatSample

/-- Block padding alone, in place of AES. -/
def pad (text : Bytes) : Bytes :=
  text ++ List.replicate (16 - text.length % 16) (UInt8.ofNat (16 - text.length % 16))

/-- Padding taken off; nothing where it is bad. -/
def unpad (text : Bytes) : Option Bytes :=
  match text.getLast? with
  | none => none
  | some n => if 1 ≤ n.toNat ∧ n.toNat ≤ 16 then some (text.take (text.length - n.toNat)) else none

theorem length_unpad_le {text text' : Bytes} (h : unpad text = some text') :
    text'.length ≤ text.length := by
  unfold unpad at h
  split at h
  · cases h
  · split_ifs at h
    cases h
    simp

/-- Keys, hashes and ciphers that can be run by hand: a public key shows its private key, and
the secret of two keys is their sum. -/
def env : ChatEnv where
  hash := sampleHash
  hashQuark := sampleHash
  hash160 := .firstBytes 20
  checkSecret := fun _ => true
  getPubKey := fun k => .ofBytes (2 :: k.keydata.val)
  signCompact := fun _ _ => none
  recoverCompact := fun _ _ => none
  ecdh := fun pub k => some (BaseUint.ofNat (Bytes.toNatLE pub.tail + Bytes.toNatLE k.keydata.val))
  prefixes := mainPrefixes
  aesEncrypt := fun _ => pad
  aesDecrypt := fun _ => unpad

end ChatSample

/-! ## The chat of a node

`CChat` of `chat.cpp`: the table of what has been received, the public keys known for addresses, the
keys asked for, and the messages that wait to be sent. Each message of a peer has a handler; a
thread sends the waiting messages and cleans the table every five seconds. The functions end in a
failure where the program would use a null pointer, leave a buffer or abort.
-/

/-- `CChat`. -/
structure CChat where
  mapMessagesReceived : OrderedMap Uint256 ℤ
  mapAddressPubkey : StdString → Option CPubKey
  vectRequestedPubkeys : List StdString
  mapChatMessages : OrderedMap Uint256 CChatMessage

/-- What the chat uses of `pwalletMain`. -/
structure ChatWallet where
  /-- `GetKeys`, in the order of the set. -/
  keys : List CKeyID
  size_lt : keys.length < 2 ^ 64
  /-- `GetKey`: nothing for a key that is not there or is locked. -/
  getKey : CKeyID → Option CKey
  /-- `GetPubKey`. -/
  getPubKey : CKeyID → Option CPubKey

/-- What an operation of the chat leads to outside it. -/
inductive ChatOutput
  | relayChatMessage (message : CChatMessage)
  | relayPubkeyRequest (request : CChatPubkeyExchange)
  | relayPubkeyResponse (response : CChatPubkeyExchange)
  | notifyChatMessage (message : CChatMessage)
  deriving DecidableEq

namespace CChat

/-- The chat of a node that has just started. -/
def initial : CChat := ⟨.empty, fun _ => none, [], .empty⟩

/-! ## The tables -/

/-- `AlreadyReceived`, at the time `GetTime()`. -/
def alreadyReceived (nTime : ℤ) (messageHash : Uint256) (chat : CChat) : Bool × CChat :=
  match chat.mapMessagesReceived.find? messageHash with
  | some _ => (true, chat)
  | none =>
    (false, { chat with mapMessagesReceived := chat.mapMessagesReceived.insert messageHash nTime })

/-- `RemoveOutdatedEntry`. -/
def removeOutdatedEntry (nTime : ℤ) (chat : CChat) : CChat :=
  let cleanup := (chat.mapMessagesReceived.entries.filter fun entry =>
    decide (entry.2 > nTime - 3600)).map (·.1)
  { chat with mapMessagesReceived := chat.mapMessagesReceived.eraseAll cleanup }

/-- `GetPubKeyFromAddress`. -/
def getPubKeyFromAddress (address : StdString) (chat : CChat) : Option CPubKey :=
  chat.mapAddressPubkey address

/-- `AddUpdateAddressWithPubKey`. -/
def addUpdateAddressWithPubKey (address : StdString) (pubkey : CPubKey) (chat : CChat) : CChat :=
  if address.isEmpty then chat
  else { chat with
    mapAddressPubkey := Function.update chat.mapAddressPubkey address (some pubkey) }

/-- `IsAddressPubkeyAvailable`: an address whose key is there is not asked for any more. -/
def isAddressPubkeyAvailable (address : StdString) (chat : CChat) : Bool × CChat :=
  if address.isEmpty then (false, chat)
  else match chat.mapAddressPubkey address with
    | none => (false, chat)
    | some _ =>
      (true, { chat with vectRequestedPubkeys := chat.vectRequestedPubkeys.filter (· ≠ address) })

/-- `IsPubkeyRequest`. -/
def isPubkeyRequest (address : StdString) (chat : CChat) : Bool :=
  !address.isEmpty && decide (address ∈ chat.vectRequestedPubkeys)

variable (E : ChatEnv) (wallet : ChatWallet)

/-! ## Sending -/

/-- The key `SendMessageToRecipient` takes: `GetTime() % (keys.size() - 1)` positions after
the first, where both sides of the remainder are unsigned. -/
def selectKey (nTime : ℤ) : Result CKeyID :=
  let divisor := (wallet.keys.length + 2 ^ 64 - 1) % 2 ^ 64
  if divisor = 0 then .error (.outOfBounds "GetTime()%(keys.size()-1)")
  else match wallet.keys[(toUInt64 nTime).toNat % divisor]? with
    | none => .error (.outOfBounds "*std::next(keys.begin(), ...)")
    | some keyid => .ok keyid

/-- `SendMessageToRecipient`: what it returns and relays. -/
def sendMessageToRecipient (nTime : ℤ) (message : CChatMessage) (chat : CChat) :
    Result (Bool × List ChatOutput) :=
  let destPubKey := (chat.getPubKeyFromAddress message.strDestination).getD .invalid
  if !destPubKey.isValid then .ok (false, [])
  else (selectKey wallet nTime).bind fun keyid =>
    match wallet.getKey keyid with
    | none => .ok (false, [])
    | some cryptKey =>
      match E.ecdh destPubKey.vch cryptKey with
      | none => .ok (false, [])
      | some secret =>
        let message := { message with publicKey := E.getPubKey cryptKey, key := secret }
        (message.encrypt E message.strMessage).bind fun (message, cipher_length) =>
          let message := { message with cipher_length := UInt64.ofNat cipher_length }
          .ok (true, [.relayChatMessage message])

/-- What the loop of `ProcessMessages` has done so far: the chat, the hashes of the messages
it sent, and its output. -/
structure Processed where
  chat : CChat
  send : List Uint256
  output : List ChatOutput

/-- The loop of `ProcessMessages` over the waiting messages; `getTime` is the time at which a
message has its turn. -/
def processLoop (getTime : Uint256 → ℤ) :
    List (Uint256 × CChatMessage) → Processed → Result Processed
  | [], p => .ok p
  | (hash, message) :: rest, p =>
    let (available, chat) := p.chat.isAddressPubkeyAvailable message.strDestination
    if available then
      (sendMessageToRecipient E wallet (getTime hash) message chat).bind fun (sent, output) =>
        processLoop getTime rest
          ⟨chat, if sent then p.send ++ [hash] else p.send, p.output ++ output⟩
    else if !message.isPubKeyRequested then
      let request := CChatPubkeyExchange.request message.strDestination
      let chat := { chat with
        vectRequestedPubkeys := chat.vectRequestedPubkeys ++ [message.strDestination]
        mapChatMessages := chat.mapChatMessages.insert hash
          { message with isPubKeyRequested := true } }
      processLoop getTime rest ⟨chat, p.send, p.output ++ [.relayPubkeyRequest request]⟩
    else processLoop getTime rest ⟨chat, p.send, p.output⟩

/-- `ProcessMessages`. -/
def processMessages (getTime : Uint256 → ℤ) (chat : CChat) : Result (CChat × List ChatOutput) :=
  (processLoop E wallet getTime chat.mapChatMessages.entries ⟨chat, [], []⟩).bind fun p =>
    .ok ({ p.chat with mapChatMessages := p.chat.mapChatMessages.eraseAll p.send }, p.output)

/-- `AddMessageToSend`, at the time `GetTime()`. -/
def addMessageToSend (nTime : ℤ) (address message : StdString) (chat : CChat) : CChat :=
  let mess := CChatMessage.create nTime address message
  { chat with mapChatMessages := chat.mapChatMessages.insert (mess.getHash E) mess }

/-! ## Receiving -/

/-- `*boost::get<CKeyID>(&dest)` of a decoded destination. -/
def keyIDOf (address : StdString) : Result CKeyID :=
  (decodeDestination E.toHashing E.prefixes address).bind fun dest =>
    match dest with
    | .keyID id => .ok id
    | _ => .error (.outOfBounds "*keyID")

/-- The part of `HandleReceivedChatMessage` for a message whose key the wallet has. The result
of `GetECDHSecret` is not looked at: without a secret the key of the message stays. -/
def showMessage (ckey : CKey) (message : CChatMessage) : Result CChatMessage :=
  (encodeDestination E.toHashing E.prefixes (.keyID (message.publicKey.getID E.toKeyOps)) false).bind
    fun addrFrom =>
      let message := { message with
        strMessageFrom := addrFrom
        key := (E.ecdh message.publicKey.vch ckey).getD message.key }
      (message.decrypt E).bind fun (message, decryptedtext_len) =>
        message.terminate decryptedtext_len

/-- `HandleReceivedChatMessage`. -/
def handleReceivedChatMessage (nTime : ℤ) (message : CChatMessage) (chat : CChat) :
    Result (CChat × List ChatOutput) :=
  match chat.alreadyReceived nTime (message.getHash E) with
  | (true, chat) => .ok (chat, [])
  | (false, chat) =>
    (keyIDOf E message.strDestination).bind fun keyID =>
      match wallet.getKey keyID with
      | some ckey =>
        (showMessage E ckey message).bind fun message => .ok (chat, [.notifyChatMessage message])
      | none => .ok (chat, [.relayChatMessage message])

/-- `HandlePubkeyRequest`. -/
def handlePubkeyRequest (nTime : ℤ) (request : CChatPubkeyExchange) (chat : CChat) :
    Result (CChat × List ChatOutput) :=
  match chat.alreadyReceived nTime (request.getHash E.toHashing) with
  | (true, chat) => .ok (chat, [])
  | (false, chat) =>
    (keyIDOf E request.address).bind fun keyID =>
      let pkey := (wallet.getPubKey keyID).getD .invalid
      if pkey.isValid then .ok (chat, [.relayPubkeyResponse { request with pkey := pkey }])
      else .ok (chat, [.relayPubkeyRequest request])

/-- `HandlePubkeyResponse`. -/
def handlePubkeyResponse (nTime : ℤ) (response : CChatPubkeyExchange) (chat : CChat) :
    Result (CChat × List ChatOutput) :=
  match chat.alreadyReceived nTime (response.getHash E.toHashing) with
  | (true, chat) => .ok (chat, [])
  | (false, chat) =>
    let output :=
      if !chat.isPubkeyRequest response.address then [.relayPubkeyResponse response] else []
    if response.pkey.isValid then
      .ok (chat.addUpdateAddressWithPubKey response.address response.pkey, output)
    else .ok (chat, output)

end CChat

end Passion
