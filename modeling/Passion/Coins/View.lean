import Passion.Sapling.MerkleTree

/-!
# Coins views

`Coin` of `coins.h`, the database view of `txdb.cpp` and the write-back cache `CCoinsViewCache` of
`coins.cpp`. Caches stand on top of each other over the database. An answer from the view below is
stored on the way back, so that reading changes the caches. Left out: memory accounting, and the
head-block markers the database keeps while it writes a batch.
-/

namespace Passion

/-! ## Coins -/

/-- `Coin`. The height is a `uint32_t`. -/
structure Coin where
  fCoinBase : Bool
  fCoinStake : Bool
  out : CTxOut
  nHeight : ℕ
  deriving DecidableEq

namespace Coin

/-- `Coin()`. -/
def empty : Coin := ⟨false, false, .null, 0⟩

/-- `Coin(outIn, nHeightIn, fCoinBaseIn, fCoinStakeIn)`. -/
def ofTxOut (out : CTxOut) (nHeight : ℤ) (fCoinBase fCoinStake : Bool) : Coin :=
  ⟨fCoinBase, fCoinStake, out, (nHeight % 2 ^ 32).toNat⟩

/-- `IsSpent`. -/
def isSpent (c : Coin) : Bool := c.out.isNull

@[simp] theorem isSpent_empty : empty.isSpent = true := rfl

end Coin

/-- `CCoinsCacheEntry`, with its flags `DIRTY` and `FRESH`. -/
structure CCoinsCacheEntry where
  coin : Coin
  dirty : Bool
  fresh : Bool
  deriving DecidableEq

/-- `CAnchorsSaplingCacheEntry`. -/
structure CAnchorsSaplingCacheEntry where
  entered : Bool
  tree : SaplingMerkleTree
  dirty : Bool
  deriving DecidableEq

/-- `CNullifiersCacheEntry`. -/
structure CNullifiersCacheEntry where
  entered : Bool
  dirty : Bool
  deriving DecidableEq

/-- `CCoinsMap`. -/
abbrev CCoinsMap := AList fun _ : COutPoint => CCoinsCacheEntry

/-- `CAnchorsSaplingMap`. -/
abbrev CAnchorsSaplingMap := AList fun _ : Uint256 => CAnchorsSaplingCacheEntry

/-- `CNullifiersMap`. -/
abbrev CNullifiersMap := AList fun _ : Uint256 => CNullifiersCacheEntry

/-- The fields of one `CCoinsViewCache`, without the pointer to the view below. -/
structure CacheData where
  cacheCoins : CCoinsMap
  cacheSaplingAnchors : CAnchorsSaplingMap
  cacheSaplingNullifiers : CNullifiersMap
  hashBlock : Uint256
  hashSaplingAnchor : Uint256

/-- The tables of `CCoinsViewDB`. -/
structure CCoinsViewDB where
  coins : AList fun _ : COutPoint => Coin
  saplingAnchors : AList fun _ : Uint256 => SaplingMerkleTree
  saplingNullifiers : List Uint256
  bestBlock : Uint256
  bestSaplingAnchor : Option Uint256

/-- `CCoinsView`: the database, or a cache over a view. -/
inductive CCoinsView
  | db (tables : CCoinsViewDB)
  | cache (c : CacheData) (base : CCoinsView)

/-- `CCoinsViewCache`: a cache and the view below it. -/
structure CCoinsViewCache where
  cache : CacheData
  base : CCoinsView

namespace CacheData

/-- The fields of a newly constructed cache. -/
def empty : CacheData := ⟨∅, ∅, ∅, BaseUint.zero, BaseUint.zero⟩

/-- The cache with the entry of an outpoint written. -/
def putCoin (c : CacheData) (outpoint : COutPoint) (e : CCoinsCacheEntry) : CacheData :=
  { c with cacheCoins := c.cacheCoins.insert outpoint e }

/-- The cache with the entry of an outpoint removed. -/
def eraseCoin (c : CacheData) (outpoint : COutPoint) : CacheData :=
  { c with cacheCoins := c.cacheCoins.erase outpoint }

/-- The cache with the entry of an anchor written. -/
def putAnchor (c : CacheData) (rt : Uint256) (e : CAnchorsSaplingCacheEntry) : CacheData :=
  { c with cacheSaplingAnchors := c.cacheSaplingAnchors.insert rt e }

/-- The cache with the entry of a nullifier written. -/
def putNullifier (c : CacheData) (nullifier : Uint256) (e : CNullifiersCacheEntry) : CacheData :=
  { c with cacheSaplingNullifiers := c.cacheSaplingNullifiers.insert nullifier e }

/-! ## Reading -/

/-- `FetchCoin`: the entry for the outpoint. `answer` is what the view below says, together
with the state the question leaves it in. -/
def fetchCoin (c : CacheData) (outpoint : COutPoint) (base : CCoinsView)
    (answer : Option Coin × CCoinsView) : Option CCoinsCacheEntry × CacheData × CCoinsView :=
  match c.cacheCoins.lookup outpoint with
  | some e => (some e, c, base)
  | none =>
    match answer.1 with
    | none => (none, c, answer.2)
    | some coin =>
      let e : CCoinsCacheEntry := ⟨coin, false, coin.isSpent⟩
      (some e, c.putCoin outpoint e, answer.2)

/-- `GetSaplingAnchorAt`. -/
def fetchAnchor (c : CacheData) (rt : Uint256) (base : CCoinsView)
    (answer : Option SaplingMerkleTree × CCoinsView) :
    Option SaplingMerkleTree × CacheData × CCoinsView :=
  match c.cacheSaplingAnchors.lookup rt with
  | some e => (if e.entered then some e.tree else none, c, base)
  | none =>
    match answer.1 with
    | none => (none, c, answer.2)
    | some tree => (some tree, c.putAnchor rt ⟨true, tree, false⟩, answer.2)

/-- `GetNullifier`. -/
def fetchNullifier (c : CacheData) (nullifier : Uint256) (base : CCoinsView)
    (answer : Bool × CCoinsView) : Bool × CacheData × CCoinsView :=
  match c.cacheSaplingNullifiers.lookup nullifier with
  | some e => (e.entered, c, base)
  | none => (answer.1, c.putNullifier nullifier ⟨answer.1, false⟩, answer.2)

/-- `GetBestBlock`. -/
def fetchBestBlock (c : CacheData) (base : CCoinsView) (answer : Uint256 × CCoinsView) :
    Uint256 × CacheData × CCoinsView :=
  if c.hashBlock.isNull then (answer.1, { c with hashBlock := answer.1 }, answer.2)
  else (c.hashBlock, c, base)

/-- `GetBestAnchor`. -/
def fetchBestAnchor (c : CacheData) (base : CCoinsView) (answer : Uint256 × CCoinsView) :
    Uint256 × CacheData × CCoinsView :=
  if c.hashSaplingAnchor.isNull then
    (answer.1, { c with hashSaplingAnchor := answer.1 }, answer.2)
  else (c.hashSaplingAnchor, c, base)

end CacheData

namespace CCoinsView

/-- `GetCoin`. A cache answers with its entry even if the entry is spent. -/
def getCoin (outpoint : COutPoint) : CCoinsView → Option Coin × CCoinsView
  | .db d => (d.coins.lookup outpoint, .db d)
  | .cache c base =>
    let (e, c', base') := c.fetchCoin outpoint base (base.getCoin outpoint)
    (e.map (·.coin), .cache c' base')

/-- `GetSaplingAnchorAt`. -/
def getSaplingAnchorAt (E : Env) (rt : Uint256) :
    CCoinsView → Option SaplingMerkleTree × CCoinsView
  | .db d =>
    if rt = SaplingMerkleTree.emptyRoot E then (some .empty, .db d)
    else (d.saplingAnchors.lookup rt, .db d)
  | .cache c base =>
    let (t, c', base') := c.fetchAnchor rt base (base.getSaplingAnchorAt E rt)
    (t, .cache c' base')

/-- `GetNullifier`. -/
def getNullifier (nullifier : Uint256) : CCoinsView → Bool × CCoinsView
  | .db d => (d.saplingNullifiers.contains nullifier, .db d)
  | .cache c base =>
    let (b, c', base') := c.fetchNullifier nullifier base (base.getNullifier nullifier)
    (b, .cache c' base')

/-- `GetBestBlock`. -/
def getBestBlock : CCoinsView → Uint256 × CCoinsView
  | .db d => (d.bestBlock, .db d)
  | .cache c base =>
    let (h, c', base') := c.fetchBestBlock base base.getBestBlock
    (h, .cache c' base')

/-- `GetBestAnchor`. -/
def getBestAnchor (E : Env) : CCoinsView → Uint256 × CCoinsView
  | .db d => (d.bestSaplingAnchor.getD (SaplingMerkleTree.emptyRoot E), .db d)
  | .cache c base =>
    let (h, c', base') := c.fetchBestAnchor base (base.getBestAnchor E)
    (h, .cache c' base')

end CCoinsView

/-! ## The operations of a cache -/

namespace CCoinsViewCache

variable (v : CCoinsViewCache)

/-- The cache as a view for a cache above it. -/
def toView : CCoinsView := .cache v.cache v.base

/-- `CCoinsViewCache(baseIn)`. -/
def onBase (base : CCoinsView) : CCoinsViewCache := ⟨.empty, base⟩

/-- `FetchCoin`. -/
def fetchCoin (outpoint : COutPoint) : Option CCoinsCacheEntry × CCoinsViewCache :=
  let (e, c, base) := v.cache.fetchCoin outpoint v.base (v.base.getCoin outpoint)
  (e, ⟨c, base⟩)

/-- `GetSaplingAnchorAt`. -/
def getSaplingAnchorAt (E : Env) (rt : Uint256) : Option SaplingMerkleTree × CCoinsViewCache :=
  let (t, c, base) := v.cache.fetchAnchor rt v.base (v.base.getSaplingAnchorAt E rt)
  (t, ⟨c, base⟩)

/-- `GetNullifier`. -/
def getNullifier (nullifier : Uint256) : Bool × CCoinsViewCache :=
  let (b, c, base) := v.cache.fetchNullifier nullifier v.base (v.base.getNullifier nullifier)
  (b, ⟨c, base⟩)

/-- `GetBestBlock`. -/
def getBestBlock : Uint256 × CCoinsViewCache :=
  let (h, c, base) := v.cache.fetchBestBlock v.base v.base.getBestBlock
  (h, ⟨c, base⟩)

/-- `GetBestAnchor`. -/
def getBestAnchor (E : Env) : Uint256 × CCoinsViewCache :=
  let (h, c, base) := v.cache.fetchBestAnchor v.base (v.base.getBestAnchor E)
  (h, ⟨c, base⟩)

/-- `AccessCoin`: the coin, or `coinEmpty`. -/
def accessCoin (outpoint : COutPoint) : Coin × CCoinsViewCache :=
  let (e, v') := v.fetchCoin outpoint
  match e with
  | none => (.empty, v')
  | some e => (e.coin, v')

/-- `HaveCoin`. -/
def haveCoin (outpoint : COutPoint) : Bool × CCoinsViewCache :=
  let (e, v') := v.fetchCoin outpoint
  match e with
  | none => (false, v')
  | some e => (!e.coin.isSpent, v')

/-- `AddCoin`. The view below is not asked. -/
def addCoin (outpoint : COutPoint) (coin : Coin) (possibleOverwrite : Bool) :
    Result CCoinsViewCache :=
  if coin.isSpent then .error (.assertion "!coin.IsSpent()")
  else if CScript.isUnspendable coin.out.scriptPubKey then .ok v
  else
    let e := (v.cache.cacheCoins.lookup outpoint).getD ⟨.empty, false, false⟩
    if !possibleOverwrite && !e.coin.isSpent then
      .error (.exception "Adding new coin that replaces non-pruned entry")
    else
      let fresh := !possibleOverwrite && !e.dirty
      .ok { v with cache := v.cache.putCoin outpoint ⟨coin, true, e.fresh || fresh⟩ }

/-- `SpendCoin`: what is moved out, a default coin if there is no entry. -/
def spendCoin (outpoint : COutPoint) : Coin × CCoinsViewCache :=
  let (e, v') := v.fetchCoin outpoint
  match e with
  | none => (.empty, v')
  | some e =>
    if e.fresh then (e.coin, { v' with cache := v'.cache.eraseCoin outpoint })
    else (e.coin, { v' with cache := v'.cache.putCoin outpoint ⟨.empty, true, false⟩ })

/-- `Uncache`: an entry without flags is forgotten. -/
def uncache (outpoint : COutPoint) : CCoinsViewCache :=
  match v.cache.cacheCoins.lookup outpoint with
  | none => v
  | some e =>
    if !e.dirty && !e.fresh then { v with cache := v.cache.eraseCoin outpoint } else v

/-- The body of `SetNullifiers` for one nullifier. -/
def setNullifier (nullifier : Uint256) (spent : Bool) : CCoinsViewCache :=
  { v with cache := v.cache.putNullifier nullifier ⟨spent, true⟩ }

/-- `SetBestBlock`. -/
def setBestBlock (hashBlock : Uint256) : CCoinsViewCache :=
  { v with cache := { v.cache with hashBlock := hashBlock } }

/-- The cache with an anchor entry written and the best anchor set. -/
def setAnchor (rt : Uint256) (e : CAnchorsSaplingCacheEntry) (best : Uint256) : CCoinsViewCache :=
  { v with cache := { v.cache.putAnchor rt e with hashSaplingAnchor := best } }

/-- `PushAnchor`. -/
def pushAnchor (E : Env) (tree : SaplingMerkleTree) : CCoinsViewCache :=
  let newrt := tree.root E
  let (currentRoot, v') := v.getBestAnchor E
  if currentRoot = newrt then v' else v'.setAnchor newrt ⟨true, tree, true⟩ newrt

/-- `PopAnchor`. The current anchor is brought into the cache and marked as not entered. -/
def popAnchor (E : Env) (newrt : Uint256) : Result CCoinsViewCache :=
  let (currentRoot, v') := v.getBestAnchor E
  if currentRoot = newrt then .ok v'
  else
    let (tree, v'') := v'.getSaplingAnchorAt E currentRoot
    match tree with
    | none => .error (.assertion "GetSaplingAnchorAt(currentRoot, tree)")
    | some tree => .ok (v''.setAnchor currentRoot ⟨false, tree, true⟩ newrt)

end CCoinsViewCache

/-! ## Writing a cache back -/

namespace CCoinsView

/-- The body of the loop of `CCoinsViewCache::BatchWrite` over the coins. -/
def batchWriteCoin (m : CCoinsMap) (outpoint : COutPoint) (e : CCoinsCacheEntry) :
    Result CCoinsMap :=
  if !e.dirty then .ok m
  else match m.lookup outpoint with
    | none =>
      if e.fresh && e.coin.isSpent then .ok m
      else .ok (m.insert outpoint ⟨e.coin, true, e.fresh⟩)
    | some us =>
      if e.fresh && !us.coin.isSpent then
        .error (.exception ("FRESH flag misapplied to cache entry for base transaction with " ++
          "spendable outputs"))
      else if us.fresh && e.coin.isSpent then .ok (m.erase outpoint)
      else .ok (m.insert outpoint ⟨e.coin, true, us.fresh⟩)

/-- The loop of `CCoinsViewCache::BatchWrite` over the coins of the child. -/
def batchWriteCoins : CCoinsMap → List (Σ _ : COutPoint, CCoinsCacheEntry) → Result CCoinsMap
  | m, [] => .ok m
  | m, ⟨o, e⟩ :: es => (batchWriteCoin m o e).bind fun m' => batchWriteCoins m' es

/-- `BatchWriteAnchors`. The tree of an entry the parent has is not replaced. -/
def batchWriteAnchor (m : CAnchorsSaplingMap) (rt : Uint256) (e : CAnchorsSaplingCacheEntry) :
    CAnchorsSaplingMap :=
  if !e.dirty then m
  else match m.lookup rt with
    | none => m.insert rt ⟨e.entered, e.tree, true⟩
    | some us => if us.entered = e.entered then m else m.insert rt ⟨e.entered, us.tree, true⟩

/-- `BatchWriteNullifiers`. -/
def batchWriteNullifier (m : CNullifiersMap) (nf : Uint256) (e : CNullifiersCacheEntry) :
    CNullifiersMap :=
  if !e.dirty then m
  else match m.lookup nf with
    | none => m.insert nf ⟨e.entered, true⟩
    | some us => if us.entered = e.entered then m else m.insert nf ⟨e.entered, true⟩

/-- `CCoinsViewDB::BatchWrite` for the coins. -/
def dbWriteCoin (m : AList fun _ : COutPoint => Coin) (outpoint : COutPoint)
    (e : CCoinsCacheEntry) : AList fun _ : COutPoint => Coin :=
  if !e.dirty then m else if e.coin.isSpent then m.erase outpoint else m.insert outpoint e.coin

/-- `CCoinsViewDB::BatchWriteSapling` for the anchors. The empty root is not stored. -/
def dbWriteAnchor (E : Env) (m : AList fun _ : Uint256 => SaplingMerkleTree) (rt : Uint256)
    (e : CAnchorsSaplingCacheEntry) : AList fun _ : Uint256 => SaplingMerkleTree :=
  if !e.dirty then m
  else if !e.entered then m.erase rt
  else if rt = SaplingMerkleTree.emptyRoot E then m else m.insert rt e.tree

/-- `CCoinsViewDB::BatchWriteSapling` for the nullifiers. -/
def dbWriteNullifier (m : List Uint256) (nf : Uint256) (e : CNullifiersCacheEntry) : List Uint256 :=
  if !e.dirty then m else if e.entered then nf :: m else m.filter (· ≠ nf)

/-- `BatchWrite`. -/
def batchWrite (E : Env) (child : CacheData) : CCoinsView → Result CCoinsView
  | .db d =>
    if child.hashBlock.isNull then .error (.assertion "!hashBlock.IsNull()")
    else .ok (.db {
      coins := child.cacheCoins.entries.foldl (fun m e => dbWriteCoin m e.1 e.2) d.coins
      saplingAnchors := child.cacheSaplingAnchors.entries.foldl
        (fun m e => dbWriteAnchor E m e.1 e.2) d.saplingAnchors
      saplingNullifiers := child.cacheSaplingNullifiers.entries.foldl
        (fun m e => dbWriteNullifier m e.1 e.2) d.saplingNullifiers
      bestBlock := child.hashBlock
      bestSaplingAnchor :=
        if child.hashSaplingAnchor.isNull then d.bestSaplingAnchor
        else some child.hashSaplingAnchor })
  | .cache c base =>
    (batchWriteCoins c.cacheCoins child.cacheCoins.entries).bind fun coins =>
      .ok (.cache {
        cacheCoins := coins
        cacheSaplingAnchors := child.cacheSaplingAnchors.entries.foldl
          (fun m e => batchWriteAnchor m e.1 e.2) c.cacheSaplingAnchors
        cacheSaplingNullifiers := child.cacheSaplingNullifiers.entries.foldl
          (fun m e => batchWriteNullifier m e.1 e.2) c.cacheSaplingNullifiers
        hashBlock := child.hashBlock
        hashSaplingAnchor := child.hashSaplingAnchor } base)

end CCoinsView

/-- `Flush`: the maps are written to the view below and cleared. -/
def CCoinsViewCache.flush (E : Env) (v : CCoinsViewCache) : Result CCoinsViewCache :=
  (v.base.batchWrite E v.cache).bind fun base =>
    .ok ⟨⟨∅, ∅, ∅, v.cache.hashBlock, v.cache.hashSaplingAnchor⟩, base⟩

end Passion
