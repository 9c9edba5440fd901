import Passion.Primitives.Base58
import Passion.Common.Newest

/-!
# Sporks

`CSporkManager` of `spork.cpp` with the messages of `spork.h`, their signatures
(`messagesigner.cpp`) and the database of `sporkdb.cpp`. A spork is a value the holder of the
spork key can set on the whole network; a node keeps the message with the latest signing time
for every id, in memory and, as far as it came from a peer, in the database.

Left out: the relaying of messages and the table by name, which no function here reads.
-/

namespace Passion

/-- `SporkId`, an enumeration with the underlying type `int32_t`. A message from a peer can
hold any number here. -/
abbrev SporkId := Int32

def SPORK_5_MAX_VALUE : SporkId := 10004
def SPORK_8_MASTERNODE_PAYMENT_ENFORCEMENT : SporkId := 10007
def SPORK_9_MASTERNODE_BUDGET_ENFORCEMENT : SporkId := 10008
def SPORK_13_ENABLE_SUPERBLOCKS : SporkId := 10012
def SPORK_14_NEW_PROTOCOL_ENFORCEMENT : SporkId := 10013
def SPORK_15_NEW_PROTOCOL_ENFORCEMENT_2 : SporkId := 10014
def SPORK_19_COLDSTAKING_MAINTENANCE : SporkId := 10019
def SPORK_20_SAPLING_MAINTENANCE : SporkId := 10020
def SPORK_21_LEGACY_MNS_MAX_HEIGHT : SporkId := 10021
def SPORK_30_DEVELOPMENT_FEE : SporkId := 10030

/-- `CSporkDef`. -/
structure CSporkDef where
  sporkId : SporkId
  defaultValue : ℤ
  name : String

/-- `sporkDefs`. -/
def sporkDefs : List CSporkDef :=
  [⟨SPORK_5_MAX_VALUE, 1000, "SPORK_5_MAX_VALUE"⟩,
   ⟨SPORK_8_MASTERNODE_PAYMENT_ENFORCEMENT, 4070908800, "SPORK_8_MASTERNODE_PAYMENT_ENFORCEMENT"⟩,
   ⟨SPORK_9_MASTERNODE_BUDGET_ENFORCEMENT, 4070908800, "SPORK_9_MASTERNODE_BUDGET_ENFORCEMENT"⟩,
   ⟨SPORK_13_ENABLE_SUPERBLOCKS, 4070908800, "SPORK_13_ENABLE_SUPERBLOCKS"⟩,
   ⟨SPORK_14_NEW_PROTOCOL_ENFORCEMENT, 4070908800, "SPORK_14_NEW_PROTOCOL_ENFORCEMENT"⟩,
   ⟨SPORK_15_NEW_PROTOCOL_ENFORCEMENT_2, 4070908800, "SPORK_15_NEW_PROTOCOL_ENFORCEMENT_2"⟩,
   ⟨SPORK_19_COLDSTAKING_MAINTENANCE, 4070908800, "SPORK_19_COLDSTAKING_MAINTENANCE"⟩,
   ⟨SPORK_20_SAPLING_MAINTENANCE, 4070908800, "SPORK_20_SAPLING_MAINTENANCE"⟩,
   ⟨SPORK_21_LEGACY_MNS_MAX_HEIGHT, 4070908800, "SPORK_21_LEGACY_MNS_MAX_HEIGHT"⟩,
   ⟨SPORK_30_DEVELOPMENT_FEE, 51, "SPORK_30_DEVELOPMENT_FEE"⟩]

/-- `sporkDefsById.find(nSporkID)`. -/
def sporkDefById (nSporkID : SporkId) : Option CSporkDef :=
  sporkDefs.find? fun d => d.sporkId == nSporkID

/-- `GetSporkNameByID`. -/
def getSporkNameByID (nSporkID : SporkId) : String :=
  match sporkDefById nSporkID with
  | none => "Unknown"
  | some d => d.name

/-! ## Messages -/

/-- What the sporks use of the rest of the program. -/
structure SporkEnv extends Hashing, KeyOps where
  prefixes : Base58Prefixes
  /-- `ParseHex(Params().GetConsensus().strSporkPubKey)`. -/
  sporkPubKey : Bytes

instance : CoeOut SporkEnv Hashing := ⟨SporkEnv.toHashing⟩

instance : CoeOut SporkEnv KeyOps := ⟨SporkEnv.toKeyOps⟩

/-- `MESS_VER_HASH`. -/
def MESS_VER_HASH : ℤ := 1

/-- `strMessageMagic`. -/
def strMessageMagic : String := "DarkNet Signed Message:\n"

/-- `CSporkMessage`, with the fields of `CSignedMessage`. -/
structure CSporkMessage where
  nSporkID : SporkId
  nValue : ℤ
  nTimeSigned : ℤ
  vchSig : Bytes
  nMessVersion : ℤ
  deriving DecidableEq

namespace CSporkMessage

variable (E : SporkEnv)

/-- `CSporkMessage(nSporkID, nValue, nTimeSigned)`. -/
def unsigned (nSporkID : SporkId) (nValue nTimeSigned : ℤ) : CSporkMessage :=
  ⟨nSporkID, nValue, nTimeSigned, [], MESS_VER_HASH⟩

/-- The three fields of the spork itself, one after the other in memory. -/
def fieldBytes (m : CSporkMessage) : Bytes :=
  intBytes 4 m.nSporkID.toInt ++ intBytes 8 m.nValue ++ intBytes 8 m.nTimeSigned

/-- `GetHash`. -/
def getHash (m : CSporkMessage) : Uint256 := E.hashQuark m.fieldBytes

/-- `GetSignatureHash`. -/
def getSignatureHash (m : CSporkMessage) : Uint256 :=
  E.hash (intBytes 4 m.nMessVersion ++ m.fieldBytes)

/-- `GetStrMessage`. -/
def getStrMessage (m : CSporkMessage) : StdString :=
  textBytes (toString m.nSporkID.toInt ++ toString m.nValue ++ toString m.nTimeSigned)

/-- `CHashSigner::VerifyHash`. -/
def verifyHash (hash : Uint256) (keyID : CKeyID) (vchSig : Bytes) : Bool :=
  match E.recoverCompact hash vchSig with
  | none => false
  | some pubkeyFromSig => pubkeyFromSig.getID E.toKeyOps == keyID

/-- `CSignedMessage::CheckSignature`. -/
def checkSignature (keyID : CKeyID) (m : CSporkMessage) : Bool :=
  if m.nMessVersion = MESS_VER_HASH then verifyHash E (m.getSignatureHash E) keyID m.vchSig
  else
    let messageHash := E.hash (varBytes (textBytes strMessageMagic) ++ varBytes m.getStrMessage)
    verifyHash E messageHash keyID m.vchSig

/-- `CSignedMessage::Sign(strSignKey)`: the signed message where it returns `true`. -/
def sign (strSignKey : StdString) (m : CSporkMessage) : Option CSporkMessage :=
  match decodeSecret E.toHashing E.prefixes E.toKeyOps strSignKey with
  | .ok (some key) =>
    let m := { m with nMessVersion := MESS_VER_HASH }
    match E.signCompact key (m.getSignatureHash E) with
    | none => none
    | some vchSig =>
      let keyID := (E.getPubKey key).getID E.toKeyOps
      if verifyHash E (m.getSignatureHash E) keyID vchSig then some { m with vchSig := vchSig }
      else none
  | _ => none

end CSporkMessage

/-- `spork.GetPublicKey().GetID()`. -/
def sporkKeyID (E : SporkEnv) : CKeyID := (CPubKey.ofBytes E.sporkPubKey).getID E.toKeyOps

/-! ## The manager -/

/-- `CSporkManager`, with `mapSporks` and the database `pSporkDB`. -/
structure Sporks where
  strMasterPrivKey : StdString
  mapSporksActive : SporkId → Option CSporkMessage
  mapSporks : Uint256 → Option CSporkMessage
  /-- `pSporkDB`. -/
  db : SporkId → Option CSporkMessage

namespace Sporks

variable (E : SporkEnv)

/-- The two writes to memory that accepting a spork makes. -/
def activate (s : Sporks) (spork : CSporkMessage) : Sporks :=
  { s with
    mapSporks := Function.update s.mapSporks (spork.getHash E) (some spork)
    mapSporksActive := Function.update s.mapSporksActive spork.nSporkID (some spork) }

/-- `WriteSpork`. -/
def writeSpork (s : Sporks) (spork : CSporkMessage) : Sporks :=
  { s with db := Function.update s.db spork.nSporkID (some spork) }

/-- `Clear`. -/
def clear (s : Sporks) : Sporks :=
  { s with strMasterPrivKey := [], mapSporksActive := fun _ => none }

/-- The spork in memory has been signed as recently. -/
def inMemoryMoreRecent (s : Sporks) (spork : CSporkMessage) : Bool :=
  (s.mapSporksActive spork.nSporkID).any fun a => decide (a.nTimeSigned ≥ spork.nTimeSigned)

/-- `ProcessSporkMsg`: the ban score and the state. -/
def processSporkMsg (nAdjustedTime : ℤ) (spork : CSporkMessage) (s : Sporks) : ℕ × Sporks :=
  if getSporkNameByID spork.nSporkID = "Unknown" then (0, s)
  else if spork.nTimeSigned > nAdjustedTime + 2 * 60 * 60 then (100, s)
  else if spork.nMessVersion ≠ MESS_VER_HASH then (0, s)
  else if s.inMemoryMoreRecent spork then (0, s)
  else if !spork.checkSignature E (sporkKeyID E) then (100, s)
  else (0, (s.activate E spork).writeSpork spork)

/-- `UpdateSpork`: it writes to memory only. -/
def updateSpork (nTime : ℤ) (nSporkID : SporkId) (nValue : ℤ) (s : Sporks) : Bool × Sporks :=
  match (CSporkMessage.unsigned nSporkID nValue nTime).sign E s.strMasterPrivKey with
  | none => (false, s)
  | some spork => (true, s.activate E spork)

/-- `GetSporkValue`. -/
def getSporkValue (s : Sporks) (nSporkID : SporkId) : ℤ :=
  match s.mapSporksActive nSporkID with
  | some spork => spork.nValue
  | none =>
    match sporkDefById nSporkID with
    | some d => d.defaultValue
    | none => -1

/-- The last signing time of spork 15 for the previous protocol. -/
def staleSporkTime : ℤ := 1578338986

/-- The test of `LoadSporksFromDB` for a stale spork 15. -/
def isStale (spork : CSporkMessage) : Bool :=
  spork.nSporkID == SPORK_15_NEW_PROTOCOL_ENFORCEMENT_2 &&
    decide (spork.nTimeSigned ≤ staleSporkTime)

/-- The loop of `LoadSporksFromDB`. -/
def loadLoop : List CSporkDef → Sporks → Sporks
  | [], s => s
  | d :: ds, s =>
    match s.db d.sporkId with
    | none => loadLoop ds s
    | some spork => if isStale spork then s.clear else loadLoop ds (s.activate E spork)

/-- `LoadSporksFromDB`. -/
def loadSporksFromDB (s : Sporks) : Sporks := loadLoop E sporkDefs s

/-- A restart on the database: an empty memory, the key of the new session, and what
`LoadSporksFromDB` finds. -/
def restart (strMasterPrivKey : StdString) (db : SporkId → Option CSporkMessage) : Sporks :=
  loadSporksFromDB E ⟨strMasterPrivKey, fun _ => none, fun _ => none, db⟩

variable {E} {s : Sporks} {spork : CSporkMessage} {nAdjustedTime : ℤ}

@[simp] theorem activate_mapSporksActive :
    (s.activate E spork).mapSporksActive =
      Function.update s.mapSporksActive spork.nSporkID (some spork) := rfl

@[simp] theorem activate_db : (s.activate E spork).db = s.db := rfl

@[simp] theorem writeSpork_db :
    (s.writeSpork spork).db = Function.update s.db spork.nSporkID (some spork) := rfl

@[simp] theorem writeSpork_mapSporksActive :
    (s.writeSpork spork).mapSporksActive = s.mapSporksActive := rfl

/-- **What `ProcessSporkMsg` does**: nothing to the state, or it stores the message in memory
and in the database. -/
theorem processSporkMsg_cases (E : SporkEnv) (nAdjustedTime : ℤ) (spork : CSporkMessage)
    (s : Sporks) :
    (processSporkMsg E nAdjustedTime spork s).2 = s ∨
      (getSporkNameByID spork.nSporkID ≠ "Unknown" ∧
        (processSporkMsg E nAdjustedTime spork s).2 = (s.activate E spork).writeSpork spork) := by
  unfold processSporkMsg
  split_ifs with hname
  · exact .inl rfl
  · exact .inl rfl
  · exact .inl rfl
  · exact .inl rfl
  · exact .inl rfl
  · exact .inr ⟨hname, rfl⟩

end Sporks

/-! ## Convergence of sporks

Nodes receive the same spork messages in different orders and more than once. What a node ends with
for an id is the first message to arrive among those with the latest signing time.
-/

open List Newest Sporks

/-- **A message every node takes**, if it is not signed too far in the future and none in
memory is as recent: known, of the accepted version and signed with the spork key. -/
structure CSporkMessage.Valid (E : SporkEnv) (m : CSporkMessage) : Prop where
  known : getSporkNameByID m.nSporkID ≠ "Unknown"
  version : m.nMessVersion = MESS_VER_HASH
  signed : m.checkSignature E (sporkKeyID E) = true

/-- A call of `ProcessSporkMsg`: the message and `GetAdjustedTime()` then. -/
structure Delivery where
  nAdjustedTime : ℤ
  spork : CSporkMessage

/-- **A delivery of a set of messages**, in some order and with repetitions: each of them, no
others, and each at a time at which it is not signed too far in the future. -/
structure Delivers (L : List CSporkMessage) (ds : List Delivery) : Prop where
  mem_iff : ∀ m, m ∈ ds.map (·.spork) ↔ m ∈ L
  notEarly : ∀ d ∈ ds, d.spork.nTimeSigned ≤ d.nAdjustedTime + 2 * 60 * 60

namespace Sporks

variable (E : SporkEnv)

/-- The state after a sequence of deliveries. -/
def processAll (s : Sporks) (ds : List Delivery) : Sporks :=
  ds.foldl (fun s d => (processSporkMsg E d.nAdjustedTime d.spork s).2) s

variable {E} {s : Sporks} {id : SporkId}

/-- The message for an id is a register of the newest message with that id. -/
theorem processSporkMsg_mapSporksActive {m : CSporkMessage} {nAdjustedTime : ℤ} (hm : m.Valid E)
    (hearly : m.nTimeSigned ≤ nAdjustedTime + 2 * 60 * 60) :
    (processSporkMsg E nAdjustedTime m s).2.mapSporksActive id =
      if m.nSporkID = id then offer (·.nTimeSigned) (s.mapSporksActive id) m
      else s.mapSporksActive id := by
  have hstep : (processSporkMsg E nAdjustedTime m s).2 =
      if s.inMemoryMoreRecent m then s else (s.activate E m).writeSpork m := by
    rw [processSporkMsg, if_neg hm.known, if_neg (by omega), if_neg (by simpa using hm.version)]
    cases s.inMemoryMoreRecent m with
    | true => rfl
    | false => simp [hm.signed]
  rw [hstep]
  by_cases hid : m.nSporkID = id
  · subst hid
    unfold inMemoryMoreRecent
    cases ha : s.mapSporksActive m.nSporkID with
    | none => simp [offer]
    | some a =>
      by_cases hle : m.nTimeSigned ≤ a.nTimeSigned
      · simp [offer, hle, ha]
      · simp [offer, hle]
  · split_ifs with hrecent
    · rfl
    · simp [Function.update_of_ne (Ne.symm hid)]

/-- The same over a sequence of deliveries. -/
theorem processAll_mapSporksActive {ds : List Delivery} (hvalid : ∀ d ∈ ds, d.spork.Valid E)
    (hearly : ∀ d ∈ ds, d.spork.nTimeSigned ≤ d.nAdjustedTime + 2 * 60 * 60) :
    (s.processAll E ds).mapSporksActive id =
      offerAll (·.nTimeSigned) (s.mapSporksActive id)
        ((ds.map (·.spork)).filter fun m => decide (m.nSporkID = id)) := by
  induction ds generalizing s with
  | nil => rfl
  | cons d ds ih =>
    have hd : (processSporkMsg E d.nAdjustedTime d.spork s).2.mapSporksActive id =
        if d.spork.nSporkID = id then
          offer (·.nTimeSigned) (s.mapSporksActive id) d.spork
        else s.mapSporksActive id :=
      processSporkMsg_mapSporksActive (hvalid d (mem_cons_self ..)) (hearly d (mem_cons_self ..))
    have hrest := ih (s := (processSporkMsg E d.nAdjustedTime d.spork s).2)
      (fun e he => hvalid e (mem_cons_of_mem _ he))
      (fun e he => hearly e (mem_cons_of_mem _ he))
    rw [processAll, foldl_cons, ← processAll, hrest, hd]
    by_cases hid : d.spork.nSporkID = id
    · simp [hid, offerAll]
    · simp [hid]

/-- The value of a spork is the value of its message, or the default. -/
theorem getSporkValue_eq (s : Sporks) (id : SporkId) :
    s.getSporkValue id =
      ((s.mapSporksActive id).map (·.nValue)).getD
        (match sporkDefById id with
          | some d => d.defaultValue
          | none => -1) := by
  unfold getSporkValue
  cases s.mapSporksActive id with
  | none => rfl
  | some m => rfl

/-- The messages of a set, one after the other, each at the time it was signed. -/
def promptly (L : List CSporkMessage) : List Delivery := L.map fun m => ⟨m.nTimeSigned, m⟩

variable {L : List CSporkMessage}

theorem delivers_promptly {a : CSporkMessage} (ha : a ∈ L) : Delivers L (promptly (a :: L)) where
  mem_iff m := by
    simp only [promptly, map_map, Function.comp_def, map_id', mem_cons]
    exact ⟨fun h => h.elim (fun h => h ▸ ha) id, .inr⟩
  notEarly d hd := by
    obtain ⟨m, -, rfl⟩ := mem_map.mp hd
    dsimp only
    omega

/-- A message with the latest signing time that arrives first stays. -/
theorem processAll_promptly {a : CSporkMessage} (hvalid : ∀ m ∈ L, m.Valid E) (ha : a ∈ L)
    (hlatest : ∀ m ∈ L, m.nSporkID = a.nSporkID → m.nTimeSigned ≤ a.nTimeSigned)
    (hnone : s.mapSporksActive a.nSporkID = none) :
    (s.processAll E (promptly (a :: L))).mapSporksActive a.nSporkID = some a := by
  have hd := delivers_promptly ha
  have hvalid' : ∀ d ∈ promptly (a :: L), d.spork.Valid E := fun d hd' =>
    hvalid d.spork ((hd.mem_iff d.spork).mp (mem_map_of_mem hd'))
  rw [processAll_mapSporksActive hvalid' hd.notEarly, hnone]
  simp only [promptly, map_map, Function.comp_def, map_id', filter_cons]
  refine offerAll_of_latest fun m hm => ?_
  obtain ⟨hmL, hid⟩ := mem_filter.mp hm
  exact hlatest m hmL (of_decide_eq_true hid)

end Sporks

/-- No message of the set with the same id is signed later. -/
def CSporkMessage.LatestIn (L : List CSporkMessage) (m : CSporkMessage) : Prop :=
  ∀ c ∈ L, c.nSporkID = m.nSporkID → c.nTimeSigned ≤ m.nTimeSigned

instance (L : List CSporkMessage) (m : CSporkMessage) : Decidable (m.LatestIn L) :=
  inferInstanceAs (Decidable (∀ c ∈ L, c.nSporkID = m.nSporkID → c.nTimeSigned ≤ m.nTimeSigned))

variable {E : SporkEnv}

/-- **When sporks converge.** Any two nodes without active sporks that process the same valid
messages end with the same values, whatever the orders and repetitions, exactly if messages
for one id that share the latest signing time carry the same value. -/
theorem getSporkValue_converges_iff {L : List CSporkMessage} (hvalid : ∀ m ∈ L, m.Valid E) :
    (∀ (s t : Sporks) (ds es : List Delivery), (∀ id, s.mapSporksActive id = none) →
        (∀ id, t.mapSporksActive id = none) → Delivers L ds → Delivers L es →
        ∀ id, (s.processAll E ds).getSporkValue id = (t.processAll E es).getSporkValue id) ↔
      ∀ a ∈ L, ∀ b ∈ L, a.nSporkID = b.nSporkID → a.LatestIn L → b.LatestIn L →
        a.nValue = b.nValue := by
  constructor
  · intro h a ha b hb hid hla hlb
    let s : Sporks := ⟨[], fun _ => none, fun _ => none, fun _ => none⟩
    have hvalue := h s s _ _ (fun _ => rfl) (fun _ => rfl) (delivers_promptly ha)
      (delivers_promptly hb) a.nSporkID
    have hactive := processAll_promptly (s := s) hvalid hb hlb rfl
    rw [← hid] at hactive
    simpa [getSporkValue, processAll_promptly (s := s) hvalid ha hla rfl, hactive] using hvalue
  · intro h s t ds es hs ht hds hes id
    have hvalid' {ds : List Delivery} (hds : Delivers L ds) : ∀ d ∈ ds, d.spork.Valid E :=
      fun d hd => hvalid d.spork ((hds.mem_iff d.spork).mp (mem_map_of_mem hd))
    rw [getSporkValue_eq, getSporkValue_eq,
      processAll_mapSporksActive (hvalid' hds) hds.notEarly,
      processAll_mapSporksActive (hvalid' hes) hes.notEarly, hs, ht]
    congr 1
    -- both registers see the messages of the set with this id
    have hmem {ds : List Delivery} (hds : Delivers L ds) m :
        m ∈ (ds.map (·.spork)).filter (fun m => decide (m.nSporkID = id)) ↔
          m ∈ L ∧ m.nSporkID = id := by
      rw [mem_filter, hds.mem_iff, decide_eq_true_eq]
    refine map_offerAll_eq (fun m => (hmem hds m).trans (hmem hes m).symm) ?_
    intro a ha b hb hla hlb
    obtain ⟨haL, haid⟩ := (hmem hds a).mp ha
    obtain ⟨hbL, hbid⟩ := (hmem hds b).mp hb
    exact h a haL b hbL (haid.trans hbid.symm)
      (fun c hc hcid => hla c ((hmem hds c).mpr ⟨hc, hcid.trans haid⟩))
      (fun c hc hcid => hlb c ((hmem hds c).mpr ⟨hc, hcid.trans hbid⟩))

/-! ## Two messages of one second -/

namespace SporkSample

/-- The one key of the sample, compressed, and its id. -/
def pubKey : CPubKey := .ofBytes (2 :: List.replicate 32 1)

/-- Keys and hashes that can be run by hand: every compact signature recovers to the sample
key. -/
def env : SporkEnv where
  hash := sampleHash
  hashQuark := sampleHash
  hash160 := fun _ => .zeros 20
  checkSecret := fun _ => true
  getPubKey := fun _ => pubKey
  signCompact := fun _ _ => some [1]
  recoverCompact := fun _ _ => some pubKey
  ecdh := fun _ _ => none
  prefixes := mainPrefixes
  sporkPubKey := pubKey.vch

/-- A signed message for spork 5. -/
def message (nValue nTimeSigned : ℤ) : CSporkMessage :=
  ⟨SPORK_5_MAX_VALUE, nValue, nTimeSigned, [1], MESS_VER_HASH⟩

theorem message_valid (nValue nTimeSigned : ℤ) : (message nValue nTimeSigned).Valid env where
  known := (by decide : getSporkNameByID SPORK_5_MAX_VALUE ≠ "Unknown")
  version := rfl
  signed := rfl

end SporkSample

open SporkSample in
/-- Two messages signed at different times: the later one decides on every node. -/
theorem getSporkValue_converges_later :
    (∀ m ∈ [message 1 10, message 2 11], m.Valid env) ∧
    ∀ (s t : Sporks) (ds es : List Delivery), (∀ id, s.mapSporksActive id = none) →
      (∀ id, t.mapSporksActive id = none) → Delivers [message 1 10, message 2 11] ds →
      Delivers [message 1 10, message 2 11] es →
      ∀ id, (s.processAll env ds).getSporkValue id = (t.processAll env es).getSporkValue id :=
  ⟨by simp [message_valid],
    (getSporkValue_converges_iff (by simp [message_valid])).mpr (by decide +kernel)⟩

open SporkSample in
/-- **Nodes can disagree for good**: of two valid messages signed in the same second each node
keeps the one that came first. -/
theorem not_getSporkValue_converges :
    ¬ ∀ (E : SporkEnv) (L : List CSporkMessage), (∀ m ∈ L, m.Valid E) →
      ∀ (s t : Sporks) (ds es : List Delivery), (∀ id, s.mapSporksActive id = none) →
        (∀ id, t.mapSporksActive id = none) → Delivers L ds → Delivers L es →
        ∀ id, (s.processAll E ds).getSporkValue id = (t.processAll E es).getSporkValue id := by
  intro h
  let s : Sporks := ⟨[], fun _ => none, fun _ => none, fun _ => none⟩
  let L := [message 1 10, message 2 10]
  have hvalue := h env L (by simp [L, message_valid]) s s
    (promptly (message 1 10 :: L)) (promptly (message 2 10 :: L)) (fun _ => rfl)
    (fun _ => rfl) (delivers_promptly (by simp [L])) (delivers_promptly (by simp [L]))
    SPORK_5_MAX_VALUE
  revert hvalue
  decide +kernel

end Passion
