import Mathlib.Data.Finset.Sort
import Passion.Common.Stateful
import Passion.Script.Standard

/-!
# The key pool

`ScriptPubKeyMan` of `wallet/scriptpubkeyman.cpp`: keys made in advance, each under an index
with a record in the wallet database, and four ordered sets of the indices that can be handed
out. A key is reserved from one of the sets, and then kept or returned; keys seen on the chain
are taken out.

Left out: the times and the metadata of keys, the encryption of secrets, the version that
`SetMinVersion` raises, and failures of the database.
-/

namespace Passion

/-! ## Destinations of a script -/

/-- `ExtractDestination` for a script that is not looked at by the cold staker. -/
def extractDestination (K : KeyOps) (scriptPubKey : CScript) : Option CTxDestination :=
  match Script.solver scriptPubKey with
  | some (.pubkey, vSolution :: _) =>
    let pubKey := CPubKey.ofBytes vSolution
    if pubKey.isValid then some (.keyID (pubKey.getID K)) else none
  | some (.pubkeyhash, vSolution :: _) => some (.keyID (.firstBytes 20 vSolution))
  | some (.scripthash, vSolution :: _) => some (.scriptID (.firstBytes 20 vSolution))
  | some (.coldstake, _ :: owner :: _) => some (.keyID (.firstBytes 20 owner))
  | _ => none

/-- `ExtractDestinations`. -/
def extractDestinations (K : KeyOps) (scriptPubKey : CScript) : Option (List CTxDestination) :=
  match Script.solver scriptPubKey with
  | none => none
  | some (.nullData, _) => none
  | some (.multisig, vSolutions) =>
    let keys := (vSolutions.tail.dropLast.map CPubKey.ofBytes).filter CPubKey.isValid
    if keys.isEmpty then none else some (keys.map fun k => .keyID (k.getID K))
  | some (.coldstake, staker :: owner :: _) =>
    some [.keyID (.firstBytes 20 staker), .keyID (.firstBytes 20 owner)]
  | some _ => (extractDestination K scriptPubKey).map fun address => [address]

/-! ## The state -/

/-- `HDChain::ChangeType`, constants of the type `uint8_t`. -/
def EXTERNAL : UInt8 := 0
def INTERNAL : UInt8 := 1
def STAKING : UInt8 := 2

/-- `CKeyPool`: the record of a key in the pool. -/
structure CKeyPool where
  vchPubKey : CPubKey
  type : UInt8
  m_pre_split : Bool
  deriving DecidableEq

/-- `CHDChain`. -/
structure CHDChain where
  seed_id : CKeyID
  nExternalChainCounter : UInt32
  nInternalChainCounter : UInt32
  nStakingChainCounter : UInt32

/-- `CHDChain::IsNull`. -/
def CHDChain.isNull (c : CHDChain) : Bool := c.seed_id.val.all (· == 0)

/-- `GetChainCounter`. -/
def CHDChain.getChainCounter (c : CHDChain) (type : UInt8) : UInt32 :=
  if type = INTERNAL then c.nInternalChainCounter
  else if type = STAKING then c.nStakingChainCounter
  else c.nExternalChainCounter

/-- The chain with the counter of a type replaced. -/
def CHDChain.setChainCounter (c : CHDChain) (type : UInt8) (n : UInt32) : CHDChain :=
  if type = INTERNAL then { c with nInternalChainCounter := n }
  else if type = STAKING then { c with nStakingChainCounter := n }
  else { c with nExternalChainCounter := n }

/-- The four sets of indices: `setExternalKeyPool`, `setInternalKeyPool`, `setStakingKeyPool`
and `set_pre_split_keypool`. -/
inductive KeyPoolSet
  | external
  | internal
  | staking
  | preSplit
  deriving DecidableEq

/-- The purposes of an entry of the address book that the key pool writes, and the others. -/
inductive AddressBookPurpose
  | receive
  | coldStaking
  | other

/-- What the key pool uses of the wallet around it. -/
structure KeyWallet where
  nWalletVersion : ℤ
  isLocked : Bool
  /-- `HaveKey`. -/
  haveKey : CKeyID → Bool
  /-- The keys of `mapWatchKeys`. -/
  watched : CKeyID → Bool
  mapScripts : AList fun _ : CScriptID => CScript
  addressBook : CKeyID → Option AddressBookPurpose
  /-- How many keys `MakeNewKey` has made. -/
  nMade : ℕ

/-- Whether `GetPubKey` finds the key. -/
def KeyWallet.getPubKey (w : KeyWallet) (id : CKeyID) : Bool := w.haveKey id || w.watched id

/-- `ScriptPubKeyMan`, with the pool records of the wallet database. -/
structure ScriptPubKeyMan where
  hdChain : CHDChain
  setKeyPool : KeyPoolSet → Finset ℤ
  m_max_keypool_index : ℤ
  m_pool_key_to_index : CKeyID → Option ℤ
  m_index_to_reserved_key : ℤ → Option CKeyID
  /-- The records `("pool", nIndex)`. -/
  db : AList fun _ : ℤ => CKeyPool
  wallet : KeyWallet

/-- What the key pool uses of the rest of the program. -/
structure KeyPoolEnv extends KeyOps where
  /-- The public key `m/44'/119'/0'/type'/counter'` of a seed. -/
  deriveChild : CKeyID → UInt8 → UInt32 → CPubKey
  /-- The public keys of the secrets that `MakeNewKey` makes, one after the other. -/
  makeNewKey : ℕ → CPubKey
  /-- `-keypool`. -/
  nKeyPoolArg : ℤ

instance : CoeOut KeyPoolEnv KeyOps := ⟨KeyPoolEnv.toKeyOps⟩

/-- A computation of the key pool. What it has changed stays where it throws. -/
abbrev KeyPoolM := Persistent Failure ScriptPubKeyMan

namespace ScriptPubKeyMan

open Persistent

variable (E : KeyPoolEnv) (s : ScriptPubKeyMan)

/-- `IsHDEnabled`. -/
def isHDEnabled : Bool := !s.hdChain.isNull

/-- `FEATURE_PRE_SPLIT_KEYPOOL`. -/
def FEATURE_PRE_SPLIT_KEYPOOL : ℤ := 169900

/-- `CanGenerateKeys`. -/
def canGenerateKeys : Bool :=
  s.isHDEnabled || decide (s.wallet.nWalletVersion < FEATURE_PRE_SPLIT_KEYPOOL)

/-- An index goes into a set. -/
@[simps] def insert (set : KeyPoolSet) (nIndex : ℤ) : ScriptPubKeyMan :=
  { s with setKeyPool := Function.update s.setKeyPool set (Insert.insert nIndex (s.setKeyPool set)) }

/-- An index is erased from a set. -/
@[simps] def erase (set : KeyPoolSet) (nIndex : ℤ) : ScriptPubKeyMan :=
  { s with setKeyPool := Function.update s.setKeyPool set ((s.setKeyPool set).erase nIndex) }

/-- `WritePool`. -/
@[simps] def writePool (nIndex : ℤ) (keypool : CKeyPool) : ScriptPubKeyMan :=
  { s with db := s.db.insert nIndex keypool }

/-- `ErasePool`. -/
@[simps] def erasePool (nIndex : ℤ) : ScriptPubKeyMan := { s with db := s.db.erase nIndex }

/-- `m_pool_key_to_index[id]`, replaced. -/
@[simps] def setPoolKey (id : CKeyID) (nIndex : Option ℤ) : ScriptPubKeyMan :=
  { s with m_pool_key_to_index := Function.update s.m_pool_key_to_index id nIndex }

/-- `m_index_to_reserved_key[nIndex]`, replaced. -/
@[simps] def setReserved (nIndex : ℤ) (id : Option CKeyID) : ScriptPubKeyMan :=
  { s with m_index_to_reserved_key := Function.update s.m_index_to_reserved_key nIndex id }

/-- The index `begin()` points to, if the set is not empty. -/
def first (set : KeyPoolSet) : Option ℤ :=
  if h : (s.setKeyPool set).Nonempty then some ((s.setKeyPool set).min' h) else none

/-! ## Reserving, keeping and returning -/

/-- The set that a type of key has of its own. -/
def typeSet (type : UInt8) : KeyPoolSet :=
  if s.isHDEnabled && type == INTERNAL then .internal
  else if s.isHDEnabled && type == STAKING then .staking
  else .external

/-- The set `ReserveKeyFromKeyPool` takes a key from: the pre-split keys come first. -/
def reserveSet (type : UInt8) : KeyPoolSet :=
  if s.setKeyPool .preSplit = ∅ then s.typeSet type else .preSplit

/-- What `ReserveKeyFromKeyPool` asks of the record of a key: it throws otherwise. -/
def checkReserved (type : UInt8) (nIndex : ℤ) : Result CKeyPool :=
  let useSplit := decide (s.setKeyPool .preSplit = ∅)
  match s.db.lookup nIndex with
  | none => .error (.exception "ReserveKeyFromKeyPool: read failed")
  | some keypool =>
    if !s.wallet.getPubKey (keypool.vchPubKey.getID E.toKeyOps) then
      .error (.exception "ReserveKeyFromKeyPool: unknown key in key pool")
    else if useSplit && (keypool.type == INTERNAL) != (type == INTERNAL && s.isHDEnabled) then
      .error (.exception "ReserveKeyFromKeyPool: keypool internal entry misclassified")
    else if useSplit && (keypool.type == STAKING) != (type == STAKING && s.isHDEnabled) then
      .error (.exception "ReserveKeyFromKeyPool: keypool staking entry misclassified")
    else if !keypool.vchPubKey.isValid then
      .error (.exception "ReserveKeyFromKeyPool: keypool entry invalid")
    else if (s.m_index_to_reserved_key nIndex).isSome then
      .error (.assertion "m_index_to_reserved_key.count(nIndex) == 0")
    else .ok keypool

/-- `ReserveKeyFromKeyPool`: the index and the record, or nothing where it returns `false`.
The index leaves its set before the record is read. -/
def reserveKeyFromKeyPool (type : UInt8) : KeyPoolM (Option (ℤ × CKeyPool)) := fun s =>
  match s.first (s.reserveSet type) with
  | none => (.ok none, s)
  | some nIndex =>
    let s' := s.erase (s.reserveSet type) nIndex
    match s.checkReserved E type nIndex with
    | .error e => (.error e, s')
    | .ok keypool =>
      let id := keypool.vchPubKey.getID E.toKeyOps
      (.ok (some (nIndex, keypool)), (s'.setReserved nIndex (some id)).setPoolKey id none)

/-- `KeepDestination`. -/
def keepDestination (nIndex : ℤ) : KeyPoolM Unit := fun s =>
  let s' := s.erasePool nIndex
  match s.m_index_to_reserved_key nIndex with
  | none => (.error (.exception "m_index_to_reserved_key.at(nIndex)"), s')
  | some id =>
    if !s.wallet.getPubKey id then (.error (.assertion "have_pk"), s')
    else (.ok (), s'.setReserved nIndex none)

/-- The set `ReturnDestination` puts an index into. -/
def returnSet (type : UInt8) : KeyPoolSet :=
  if s.isHDEnabled && type == INTERNAL then .internal
  else if s.isHDEnabled && type == STAKING then .staking
  else if s.isHDEnabled && !decide (s.setKeyPool .preSplit = ∅) then .preSplit
  else .external

/-- `ReturnDestination`. -/
def returnDestination (nIndex : ℤ) (type : UInt8) : KeyPoolM Unit := fun s =>
  let s' := s.insert (s.returnSet type) nIndex
  match s.m_index_to_reserved_key nIndex with
  | none => (.error (.exception "m_index_to_reserved_key.at(nIndex)"), s')
  | some id => (.ok (), (s'.setPoolKey id (some nIndex)).setReserved nIndex none)

/-! ## Making keys -/

/-- The loop of `DeriveNewChildKey`: the first key from a counter on that the wallet does not
have, and the counter after it. -/
def deriveFrom (haveKey : CKeyID → Bool) (seed : CKeyID) (type : UInt8) :
    ℕ → UInt32 → Option (CPubKey × UInt32)
  | 0, _ => none
  | fuel + 1, chainCounter =>
    let childKey := E.deriveChild seed type chainCounter
    if haveKey (childKey.getID E.toKeyOps) then
      deriveFrom haveKey seed type fuel (chainCounter + 1)
    else some (childKey, chainCounter + 1)

/-- The wallet has a key. -/
@[simps] def addKey (pubkey : CPubKey) : ScriptPubKeyMan :=
  { s with wallet := { s.wallet with
    haveKey := Function.update s.wallet.haveKey (pubkey.getID E.toKeyOps) true } }

/-- `GenerateNewKey`. The counter of a chain has `2^32` values; a wallet that has the keys of
all of them would look for a new one without end. -/
def generateNewKey (type : UInt8) : KeyPoolM CPubKey := fun s =>
  if s.isHDEnabled then
    if !s.wallet.haveKey s.hdChain.seed_id then
      (.error (.exception "DeriveNewChildKey: seed not found"), s)
    else match deriveFrom E s.wallet.haveKey s.hdChain.seed_id type (2 ^ 32)
        (s.hdChain.getChainCounter type) with
      | none => (.error (.error "DeriveNewChildKey does not return"), s)
      | some (pubkey, chainCounter) =>
        let hdChain := s.hdChain.setChainCounter type chainCounter
        (.ok pubkey, addKey E { s with hdChain := hdChain } pubkey)
  else
    let pubkey := E.makeNewKey s.wallet.nMade
    let wallet := { s.wallet with nMade := s.wallet.nMade + 1 }
    (.ok pubkey, addKey E { s with wallet := wallet } pubkey)

/-- `AddKeypoolPubkeyWithDB`. -/
def addKeypoolPubkeyWithDB (pubkey : CPubKey) (type : UInt8) : KeyPoolM Unit := fun s =>
  if s.m_max_keypool_index ≥ 2 ^ 63 - 1 then
    (.error (.assertion "m_max_keypool_index < std::numeric_limits<int64_t>::max()"), s)
  else
    let index := s.m_max_keypool_index + 1
    let s' := { s with m_max_keypool_index := index }.writePool index ⟨pubkey, type, false⟩
    (.ok (), (s'.insert (s.typeSet type) index).setPoolKey (pubkey.getID E.toKeyOps) (some index))

/-- `GeneratePool`. -/
def generatePool (type : UInt8) : ℕ → KeyPoolM Unit
  | 0 => pure ()
  | targetSize + 1 =>
    generateNewKey E type >>= fun pubkey =>
    addKeypoolPubkeyWithDB E pubkey type >>= fun _ => generatePool type targetSize

/-- How many keys a set misses. -/
def missing (kpSize : ℕ) (set : KeyPoolSet) : ℕ :=
  let nTargetSize : ℤ := if kpSize > 0 then kpSize else max E.nKeyPoolArg 0 % 2 ^ 32
  (max nTargetSize 1 - (s.setKeyPool set).card).toNat

/-- `TopUp`. -/
def topUp (kpSize : ℕ) : KeyPoolM Bool := fun s =>
  if !s.canGenerateKeys then (.ok false, s)
  else if s.wallet.isLocked then (.ok false, s)
  else
    let missingExternal := s.missing E kpSize .external
    let missingInternal := if s.isHDEnabled then s.missing E kpSize .internal else 0
    let missingStaking := if s.isHDEnabled then s.missing E kpSize .staking else 0
    exec (generatePool E EXTERNAL missingExternal >>= fun _ =>
      generatePool E INTERNAL missingInternal >>= fun _ =>
      generatePool E STAKING missingStaking >>= fun _ => pure true) s

/-! ## Used keys -/

/-- The set `MarkReserveKeysAsUsed` walks. -/
def usedSet (keypool_id : ℤ) : KeyPoolSet :=
  if keypool_id ∈ s.setKeyPool .internal then .internal
  else if s.setKeyPool .preSplit = ∅ then
    if keypool_id ∈ s.setKeyPool .staking then .staking else .external
  else .preSplit

/-- `HasAddressBook` and `SetAddressBook` for a key that has been used. -/
def recordUse (fInternal fStaking : Bool) (id : CKeyID) : ScriptPubKeyMan :=
  let purpose : AddressBookPurpose := if fStaking then .coldStaking else .receive
  if !fInternal && (s.wallet.addressBook id).isNone then
    { s with wallet := { s.wallet with
      addressBook := Function.update s.wallet.addressBook id (some purpose) } }
  else s

/-- The body of the loop of `MarkReserveKeysAsUsed`. -/
def removeUsed (fInternal fStaking : Bool) (set : KeyPoolSet) (s : ScriptPubKeyMan)
    (index : ℤ) : ScriptPubKeyMan :=
  let s' := match s.db.lookup index with
    | none => s
    | some keypool =>
      let id := keypool.vchPubKey.getID E.toKeyOps
      (s.setPoolKey id none).recordUse fInternal fStaking id
  (s'.erasePool index).erase set index

/-- `MarkReserveKeysAsUsed`. -/
def markReserveKeysAsUsed (keypool_id : ℤ) : KeyPoolM Unit := fun s =>
  let fInternal := decide (keypool_id ∈ s.setKeyPool .internal)
  let fStaking := decide (keypool_id ∈ s.setKeyPool .staking)
  if !fInternal && !(decide (keypool_id ∈ s.setKeyPool .external) ||
      decide (keypool_id ∈ s.setKeyPool .preSplit) || fStaking) then
    (.error (.assertion "setExternalKeyPool.count(keypool_id) || ..."), s)
  else
    let set := s.usedSet keypool_id
    (.ok (), (((s.setKeyPool set).filter (· ≤ keypool_id)).sort).foldl
      (removeUsed E fInternal fStaking set) s)

/-- `CAffectedKeysVisitor`, for scripts that refer to each other at most `fuel` times. -/
def affectedKeysOf (w : KeyWallet) : ℕ → CScript → List CKeyID
  | 0, _ => []
  | fuel + 1, script =>
    ((extractDestinations E.toKeyOps script).getD []).flatMap fun
      | .keyID id => if w.haveKey id then [id] else []
      | .scriptID id =>
        match w.mapScripts.lookup id with
        | none => []
        | some script => affectedKeysOf w fuel script
      | .noDestination => []

/-- `GetAffectedKeys`. -/
def getAffectedKeys (spk : CScript) : List CKeyID :=
  affectedKeysOf E s.wallet (s.wallet.mapScripts.keys.length + 1) spk

/-- The body of the loop of `MarkUnusedAddresses`. -/
def markKeyUsed (keyid : CKeyID) : KeyPoolM Unit :=
  state >>= fun s =>
    match s.m_pool_key_to_index keyid with
    | none => pure ()
    | some nIndex => markReserveKeysAsUsed E nIndex >>= fun _ => topUp E 0 >>= fun _ => pure ()

/-- The loop of `MarkUnusedAddresses`. -/
def markKeysUsed : List CKeyID → KeyPoolM Unit
  | [] => pure ()
  | keyid :: keyids => markKeyUsed E keyid >>= fun _ => markKeysUsed keyids

/-- `MarkUnusedAddresses`. -/
def markUnusedAddresses (script : CScript) : KeyPoolM Unit :=
  state >>= fun s => markKeysUsed E (s.getAffectedKeys E script)

/-! ## Upgrade and reload -/

/-- The body of the loop of `MarkPreSplitKeys`. -/
def markPreSplitKey (index : ℤ) : KeyPoolM Unit := fun s =>
  match s.db.lookup index with
  | none => (.error (.exception "MarkPreSplitKeys: read keypool entry failed"), s)
  | some keypool =>
    (.ok (), ((s.writePool index { keypool with m_pre_split := true }).insert .preSplit
      index).erase .external index)

/-- The loop of `MarkPreSplitKeys`. -/
def markPreSplit : List ℤ → KeyPoolM Unit
  | [] => pure ()
  | index :: indices => markPreSplitKey index >>= fun _ => markPreSplit indices

/-- `MarkPreSplitKeys`. -/
def markPreSplitKeys : KeyPoolM Unit :=
  state >>= fun s => markPreSplit (s.setKeyPool .external).sort

/-- `NewKeyPool`. -/
def newKeyPool : KeyPoolM Bool := fun s =>
  let sets := s.setKeyPool .internal ∪ s.setKeyPool .external ∪ s.setKeyPool .staking
  let s' := sets.sort.foldl erasePool s
  exec (topUp E 0) { s' with
    setKeyPool := fun set => if set = .preSplit then s.setKeyPool .preSplit else ∅
    m_pool_key_to_index := fun _ => none }

/-- The set `LoadKeyPool` puts an index into. -/
def loadSet (keypool : CKeyPool) : Option KeyPoolSet :=
  if keypool.m_pre_split then some .preSplit
  else if keypool.type = INTERNAL then some .internal
  else if keypool.type = EXTERNAL then some .external
  else if keypool.type = STAKING then some .staking
  else none

/-- `LoadKeyPool`. -/
def loadKeyPool (nIndex : ℤ) (keypool : CKeyPool) : KeyPoolM Unit := fun s =>
  match loadSet keypool with
  | none => (.error (.exception "LoadKeyPool: invalid CKeypool type"), s)
  | some set =>
    let s' := s.insert set nIndex
    (.ok (), { s' with m_max_keypool_index := max s.m_max_keypool_index nIndex }.setPoolKey
      (keypool.vchPubKey.getID E.toKeyOps) (some nIndex))

/-- The key pool of a process that has just started, on the database and the wallet of `s`. -/
@[simps] def unloaded : ScriptPubKeyMan where
  hdChain := s.hdChain
  setKeyPool := fun _ => ∅
  m_max_keypool_index := 0
  m_pool_key_to_index := fun _ => none
  m_index_to_reserved_key := fun _ => none
  db := s.db
  wallet := s.wallet

/-- A restart: the records are loaded again. One that cannot be loaded is passed over. -/
def reload : ScriptPubKeyMan :=
  s.db.entries.foldl (fun s e => (exec (loadKeyPool E e.1 e.2) s).2) s.unloaded

end ScriptPubKeyMan

end Passion
