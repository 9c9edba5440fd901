import Passion.Wallet.KeyPoolClasses

/-!
# Where a key comes from

`DeriveNewChildKey` of `wallet/scriptpubkeyman.cpp` with the path it records in the metadata of the
key. The loop skips keys the wallet has, and every turn of it adds a whole path to the record.
-/

namespace Passion

/-- The operations on `CExtKey`. -/
structure Bip32 (CExtKey : Type) where
  setSeed : CKey → CExtKey
  derive : CExtKey → UInt32 → CExtKey
  key : CExtKey → CKey

/-- `CKeyMetadata` without the times. -/
structure CKeyMetadata where
  hd_seed_id : CKeyID
  fingerprint : Bytes
  path : List UInt32

/-- What `DeriveNewChildKey` changes, and the indices that its loop tried. -/
structure ChildKey where
  secret : CKey
  metadata : CKeyMetadata
  hdChain : CHDChain
  tried : List UInt32

/-- `BIP32_HARDENED_KEY_LIMIT`. -/
def BIP32_HARDENED_KEY_LIMIT : UInt32 := 0x80000000

/-- `m/44'/119'/account_num'/change'/<n>'`. -/
def keyPath (changeType : UInt8) (n : UInt32) : List UInt32 :=
  [44, 119, 0, changeType.toUInt32, n].map (· ||| BIP32_HARDENED_KEY_LIMIT)

variable {CExtKey : Type} (K : KeyOps) (B : Bip32 CExtKey) (haveKey : CKeyID → Bool)

/-- The key that a turn of the loop derives. -/
def childSecret (seed : CKey) (changeType : UInt8) (chainCounter : UInt32) : CKey :=
  let masterKey := B.setSeed seed
  let purposeKey := B.derive masterKey (44 ||| BIP32_HARDENED_KEY_LIMIT)
  let cointypeKey := B.derive purposeKey (119 ||| BIP32_HARDENED_KEY_LIMIT)
  let accountKey := B.derive cointypeKey (0 ||| BIP32_HARDENED_KEY_LIMIT)
  let changeKey := B.derive accountKey (changeType.toUInt32 ||| BIP32_HARDENED_KEY_LIMIT)
  B.key (B.derive changeKey (chainCounter ||| BIP32_HARDENED_KEY_LIMIT))

/-- The loop of `DeriveNewChildKey`: the key, the counter, the path and the indices tried. -/
def deriveLoop (seed : CKey) (changeType : UInt8) :
    ℕ → UInt32 → List UInt32 → Option (CKey × UInt32 × List UInt32 × List UInt32)
  | 0, _, _ => none
  | fuel + 1, chainCounter, path =>
    let childKey := childSecret B seed changeType chainCounter
    let path := path ++ keyPath changeType chainCounter
    if haveKey ((K.getPubKey childKey).getID K) then
      (deriveLoop seed changeType fuel (chainCounter + 1) path).map
        fun (key, counter, path, tried) => (key, counter, path, chainCounter :: tried)
    else some (childKey, chainCounter + 1, path, [chainCounter])

/-- `DeriveNewChildKey`. -/
def deriveNewChildKey (getKey : CKeyID → Option CKey) (hdChain : CHDChain)
    (metadata : CKeyMetadata) (changeType : UInt8) : Except Failure ChildKey :=
  match getKey hdChain.seed_id with
  | none => .error (.exception "DeriveNewChildKey: seed not found")
  | some seed =>
    if changeType > STAKING then .error (.exception "HD chain type doesn't exist.")
    else match deriveLoop K B haveKey seed changeType (2 ^ 32)
        (hdChain.getChainCounter changeType) metadata.path with
      | none => .error (.error "DeriveNewChildKey does not return")
      | some (secret, chainCounter, path, tried) =>
        let masterID := (K.getPubKey (B.key (B.setSeed seed))).getID K
        .ok ⟨secret, ⟨hdChain.seed_id, masterID.val.take 4, path⟩,
          hdChain.setChainCounter changeType chainCounter, tried⟩

/-- **The origin of a key is right**: the key is derived along the recorded path, which is a path
of the chain below its counter, the wallet did not have it, and the counter is past every index
tried. -/
structure OriginRight (seed : CKey) (changeType : UInt8) (r : ChildKey) : Prop where
  secret : r.secret = B.key (r.metadata.path.foldl B.derive (B.setSeed seed))
  path : ∃ n < r.hdChain.getChainCounter changeType, r.metadata.path = keyPath changeType n
  new : haveKey ((K.getPubKey r.secret).getID K) = false
  counter : ∀ n ∈ r.tried, n < r.hdChain.getChainCounter changeType

section

variable {K B haveKey} {seed secret : CKey} {changeType : UInt8} {fuel : ℕ} {c c' : UInt32}
  {path path' tried : List UInt32} {hdChain : CHDChain}

/-- **The record holds one path for every index tried**; the key is the one of the last index, the
first that the wallet does not have. -/
theorem deriveLoop_spec (h : deriveLoop K B haveKey seed changeType fuel c path =
    some (secret, c', path', tried)) :
    path' = path ++ tried.flatMap (keyPath changeType) ∧ tried.head? = some c ∧
      haveKey ((K.getPubKey secret).getID K) = false ∧
      ∃ n, tried.getLast? = some n ∧ secret = childSecret B seed changeType n ∧ c' = n + 1 := by
  induction fuel generalizing c path tried with
  | zero => cases h
  | succ fuel ih =>
    rw [deriveLoop] at h
    split at h
    · obtain ⟨⟨_, _, _, rest⟩, hloop, heq⟩ := Option.map_eq_some_iff.mp h
      cases heq
      obtain ⟨hpath, hhead, hnew, n, hlast, hrest⟩ := ih hloop
      refine ⟨by simp [hpath], rfl, hnew, n, ?_, hrest⟩
      rw [List.getLast?_cons, hlast, Option.getD_some]
    · next hnew =>
      cases h
      exact ⟨by simp, rfl, by simpa using hnew, c, rfl, rfl, rfl⟩

/-- A path for every index is a single path only for a single index. -/
theorem eq_singleton_of_flatMap {n : UInt32} (hhead : tried.head? = some c)
    (h : tried.flatMap (keyPath changeType) = keyPath changeType n) : tried = [c] := by
  cases tried with
  | nil => cases hhead
  | cons m rest =>
    cases hhead
    cases rest with
    | nil => rfl
    | cons k rest => simp [keyPath] at h

theorem getChainCounter_setChainCounter :
    (hdChain.setChainCounter changeType c).getChainCounter changeType = c := by
  unfold CHDChain.setChainCounter CHDChain.getChainCounter
  split_ifs <;> rfl

/-- **When the recorded origin is right**: the first key tried is one the wallet does not have, and
the counter does not wrap around. -/
theorem originRight_iff {getKey : CKeyID → Option CKey} {metadata : CKeyMetadata}
    (hseed : getKey hdChain.seed_id = some seed) (htype : changeType ≤ STAKING)
    (hnew : metadata.path = []) (hc : hdChain.getChainCounter changeType = c) :
    (∃ r, deriveNewChildKey K B haveKey getKey hdChain metadata changeType = .ok r ∧
      OriginRight K B haveKey seed changeType r) ↔
    haveKey ((K.getPubKey (childSecret B seed changeType c)).getID K) = false ∧ c < c + 1 := by
  simp only [deriveNewChildKey, hseed, hnew, hc, if_neg (UInt8.not_lt.mpr htype)]
  constructor
  · rintro ⟨r, hr, hright⟩
    split at hr
    · cases hr
    · next secret c' path tried hloop =>
      cases hr
      obtain ⟨hpath, hhead, hfree, n, hlast, rfl, rfl⟩ := deriveLoop_spec hloop
      obtain ⟨m, -, hm⟩ := hright.path
      obtain rfl := eq_singleton_of_flatMap hhead (hpath.symm.trans hm)
      cases hlast
      refine ⟨hfree, ?_⟩
      have hlt := hright.counter _ (List.mem_singleton_self _)
      rwa [getChainCounter_setChainCounter] at hlt
  · rintro ⟨hfree, hlt⟩
    rw [show 2 ^ 32 = (2 ^ 32 - 1) + 1 from rfl, deriveLoop]
    simp only [hfree, Bool.false_eq_true, if_false, List.nil_append]
    refine ⟨_, rfl, rfl, ⟨_, ?_, rfl⟩, hfree, ?_⟩
    · rwa [getChainCounter_setChainCounter]
    · intro n hn
      obtain rfl := List.mem_singleton.mp hn
      rwa [getChainCounter_setChainCounter]

end

/-! ## A wallet that has the first key -/

namespace KeyOriginSample

/-- Keys that can be run by hand: the id of a key is its first bytes. -/
def keys : KeyOps :=
  { KeyPoolSample.env.toKeyOps with getPubKey := fun k => .ofBytes (2 :: k.keydata.val) }

/-- A derived key is told apart by the last index of its path. -/
def bip32 : Bip32 CKey where
  setSeed seed := seed
  derive _ n := ⟨.firstBytes 32 [UInt8.ofNat n.toNat], true⟩
  key x := x

def seed : CKey := ⟨.firstBytes 32 [255], true⟩

/-- The wallet has the seed and the key of the index zero. -/
def hasKey (id : CKeyID) : Bool := id == .firstBytes 20 [2, 255] || id == .firstBytes 20 [2, 0]

/-- What is derived from a counter on. -/
def derived (c : UInt32) : Except Failure ChildKey :=
  deriveNewChildKey keys bip32 hasKey (fun _ => some seed) ⟨.firstBytes 20 [2, 255], c, 0, 0⟩
    ⟨.firstBytes 20 [], [], []⟩ EXTERNAL

theorem exists_not_originRight :
    ∃ r, derived 0 = .ok r ∧ ¬ OriginRight keys bip32 hasKey seed EXTERNAL r := by
  refine ⟨_, rfl, fun hright => ?_⟩
  obtain ⟨n, -, hn⟩ := hright.path
  simp [keyPath] at hn

theorem exists_originRight :
    ∃ r, derived 1 = .ok r ∧ OriginRight keys bip32 hasKey seed EXTERNAL r :=
  (originRight_iff rfl (by decide) rfl rfl).mpr ⟨by decide, by decide⟩

end KeyOriginSample

end Passion
