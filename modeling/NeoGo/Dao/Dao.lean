import NeoGo.Dao.Store

/-! # `Simple` and `Cached`

`Simple` reads and writes typed records through its store. `Cached` embeds another DAO and
keeps four object caches in front of it: accounts and NEP5 balances and transfer logs are
written to the caches only and reach the store on `Persist`, contracts are read through a
cache and written to both.

`Cached` calls account, contract and NEP5 methods of `Simple` that the sources do not have
(their `Simple` has the later NEP17 methods); those are modelled from the spec as typed puts
and gets of serialised objects under prefixed keys, like the NEP17 ones in the sources.
Writes cannot fail in the model: serialisation is total and `MemCachedStore.Put` returns nil.
-/

namespace NeoGo.Dao

/-- Modelled from the spec: `storage.KeyPrefix` is not among the sources; the prefixes the
modelled operations use. -/
inductive KeyPrefix where
  | dataBlock
  | dataTransaction
  | stAccount
  | stNotification
  | stContract
  | stStorage
  | stNEP5Transfers
  | stNEP5Balances
  | stNEP17Transfers
  | ixHeaderHashList
  | sysVersion
  deriving DecidableEq

/-- The prefix's byte, neo-go's. `STNEP17Transfers` is the later name of `STNEP5Transfers`,
with the same byte; the other prefixes are distinct. -/
def KeyPrefix.toByte : KeyPrefix → UInt8
  | .dataBlock => 0x01
  | .dataTransaction => 0x02
  | .stAccount => 0x40
  | .stNotification => 0x4d
  | .stContract => 0x50
  | .stStorage => 0x70
  | .stNEP5Transfers => 0x72
  | .stNEP5Balances => 0x73
  | .stNEP17Transfers => 0x72
  | .ixHeaderHashList => 0x80
  | .sysVersion => 0xf0

def appendPrefix (k : KeyPrefix) (b : Bytes) : Bytes := k.toByte :: b

def le32 (n : UInt32) : Bytes :=
  [n.toUInt8, (n >>> 8).toUInt8, (n >>> 16).toUInt8, (n >>> 24).toUInt8]

/-- `Version`. -/
structure Version where
  storagePrefix : UInt8
  stateRootInHeader : Bool
  p2pSigExtensions : Bool
  keepOnlyLatestState : Bool
  /-- A Go string: its bytes. -/
  value : Bytes
  deriving DecidableEq

/-- Modelled from the spec: the state objects and their serialisations are not among the
sources. `A`, `C` and `N` are `state.Account`, `state.Contract` and `state.NEP5Balances`; a
`state.NEP5TransferLog` is its raw bytes. -/
structure StateCodec (A C N : Type) where
  /-- `Account.ScriptHash`. -/
  accountHash : A → Bytes
  encodeAccount : A → Bytes
  decodeAccount : Bytes → Option A
  /-- `Contract.ScriptHash()`. -/
  contractHash : C → Bytes
  encodeContract : C → Bytes
  decodeContract : Bytes → Option C
  encodeBalances : N → Bytes
  decodeBalances : Bytes → Option N
  /-- `state.NewNEP5Balances()`. -/
  newBalances : N

/-- The errors a read can return. -/
inductive DaoError where
  /-- `storage.ErrKeyNotFound`. -/
  | errKeyNotFound
  /-- The reader's error after `DecodeBinary`. -/
  | errDecode
  /-- `ErrAlreadyExists`. -/
  | errAlreadyExists
  /-- `ErrHasConflicts`. -/
  | errHasConflicts
  /-- An error `errors.New` makes where it is returned, by its text. -/
  | message (text : String)
  deriving DecidableEq

/-- `Simple`: its version and the stores its `MemCachedStore` reads through, top down. -/
structure Simple where
  version : Version
  /-- Its own `MemCachedStore` layer. -/
  store : Nat
  /-- The store the layer is over. -/
  ps : Nat
  /-- The layers below that store. -/
  below : List Nat

namespace Simple

variable {A C N : Type} (c : StateCodec A C N) (s : Simple) (h : Heap A C N)

/-- The stores a read goes through. -/
def chain : List Nat := s.store :: s.ps :: s.below

def getAndDecode {α : Type} (decode : Bytes → Option α) (key : Bytes) : Except DaoError α :=
  match h.get s.chain key with
  | none => .error .errKeyNotFound
  | some entityBytes =>
    match decode entityBytes with
    | none => .error .errDecode
    | some entity => .ok entity

/-- `Store.Put` on its layer. -/
def put (key value : Bytes) : Heap A C N := h.write s.store key (some value)

/-- `Store.Delete` on its layer. -/
def delete (key : Bytes) : Heap A C N := h.write s.store key none

@[simp] theorem get_put_self (key value : Bytes) : (s.put h key value).get s.chain key = some value :=
  h.get_write_self s.store key (some value) _

theorem get_put_ne {key key' : Bytes} (value : Bytes) (hk : key ≠ key') :
    (s.put h key value).get s.chain key' = h.get s.chain key' :=
  h.get_write_ne s.store (some value) hk _

/-- Modelled from the spec: `Simple.GetAccountState`. -/
def getAccountState (hash : Bytes) : Except DaoError A :=
  s.getAndDecode h c.decodeAccount (appendPrefix .stAccount hash)

/-- Modelled from the spec: `Simple.putAccountState`. -/
def putAccountState (a : A) : Heap A C N :=
  s.put h (appendPrefix .stAccount (c.accountHash a)) (c.encodeAccount a)

/-- Modelled from the spec: `Simple.GetContractState`. -/
def getContractState (hash : Bytes) : Except DaoError C :=
  s.getAndDecode h c.decodeContract (appendPrefix .stContract hash)

/-- Modelled from the spec: `Simple.PutContractState`. -/
def putContractState (cs : C) : Heap A C N :=
  s.put h (appendPrefix .stContract (c.contractHash cs)) (c.encodeContract cs)

/-- Modelled from the spec: `Simple.DeleteContractState`. -/
def deleteContractState (hash : Bytes) : Heap A C N :=
  s.delete h (appendPrefix .stContract hash)

/-- Modelled from the spec: `Simple.GetNEP5Balances`; a missing record reads as new, empty
balances. -/
def getNEP5Balances (acc : Bytes) : Except DaoError N :=
  match s.getAndDecode h c.decodeBalances (appendPrefix .stNEP5Balances acc) with
  | .error .errKeyNotFound => .ok c.newBalances
  | r => r

/-- Modelled from the spec: `Simple.putNEP5Balances`. -/
def putNEP5Balances (acc : Bytes) (bs : N) : Heap A C N :=
  s.put h (appendPrefix .stNEP5Balances acc) (c.encodeBalances bs)

/-- Modelled from the spec: the key of a NEP5 transfer log, as `getNEP17TransferLogKey`
builds the NEP17 one, with the index after the account. -/
def nep5TransferLogKey (acc : Bytes) (index : UInt32) : Bytes :=
  KeyPrefix.stNEP5Transfers.toByte :: (acc ++ le32 index)

/-- Modelled from the spec: `Simple.GetNEP5TransferLog`, as `GetNEP17TransferLog`; a missing
log reads as empty. -/
def getNEP5TransferLog (acc : Bytes) (index : UInt32) : Bytes :=
  (h.get s.chain (nep5TransferLogKey acc index)).getD []

/-- Modelled from the spec: `Simple.PutNEP5TransferLog`, as `PutNEP17TransferLog`. -/
def putNEP5TransferLog (acc : Bytes) (index : UInt32) (lg : Bytes) : Heap A C N :=
  s.put h (nep5TransferLogKey acc index) lg

/-- `makeStorageItemKey`; the contract id is the `uint32` the key holds. -/
def makeStorageItemKey (storagePrefix : UInt8) (id : UInt32) (key : Bytes) : Bytes :=
  storagePrefix :: (le32 id ++ key)

/-- `GetStorageItem`: `nil` when the store has no item. -/
def getStorageItem (id : UInt32) (key : Bytes) : Option Bytes :=
  h.get s.chain (makeStorageItemKey s.version.storagePrefix id key)

def putStorageItem (id : UInt32) (key si : Bytes) : Heap A C N :=
  s.put h (makeStorageItemKey s.version.storagePrefix id key) si

def deleteStorageItem (id : UInt32) (key : Bytes) : Heap A C N :=
  s.delete h (makeStorageItemKey s.version.storagePrefix id key)

/-- `Persist`: its layer flushed into the store below. -/
def persist : Nat × Heap A C N := h.flush s.store s.ps

end Simple

/-- `NewSimple`: a `Simple` over a new layer over the store `backend`, whose own layers are
`below`. -/
def newSimple {A C N : Type} (backend : Nat) (below : List Nat)
    (stateRootInHeader p2pSigExtensions : Bool) (h : Heap A C N) : Simple × Heap A C N :=
  let (st, h) := h.newStore
  ({ version :=
      { storagePrefix := KeyPrefix.stStorage.toByte, stateRootInHeader, p2pSigExtensions,
        keepOnlyLatestState := false, value := [] }
     store := st, ps := backend, below }, h)

/-- `Simple.GetWrapped`: `NewSimple` over its store, with its version. -/
def Simple.getWrapped {A C N : Type} (s : Simple) (h : Heap A C N) : Simple × Heap A C N :=
  let (d, h) := newSimple s.store (s.ps :: s.below) s.version.stateRootInHeader
    s.version.p2pSigExtensions h
  ({ d with version := s.version }, h)

/-- A DAO: a `Simple`, or a `Cached` with the DAO it embeds, the numbers of its `accounts`,
`contracts`, `balances` and `transfers` caches, and `dropNEP5Cache`. -/
inductive DAO where
  | simple (s : Simple)
  | cached (dao : DAO) (accounts contracts balances transfers : Nat) (dropNEP5Cache : Bool)

namespace DAO

variable {A C N : Type} (c : StateCodec A C N)

/-! ## Reads -/

def getAccountState : DAO → Heap A C N → Bytes → Except DaoError A
  | .simple s, h, hash => s.getAccountState c h hash
  | .cached d accounts _ _ _ _, h, hash =>
    match (h.accounts accounts).get hash with
    | some a => .ok a
    | none => d.getAccountState h hash

/-- `GetContractState`: a contract read through the cache is put into it. -/
def getContractState : DAO → Heap A C N → Bytes → Except DaoError C × Heap A C N
  | .simple s, h, hash => (s.getContractState c h hash, h)
  | .cached d _ contracts _ _ _, h, hash =>
    match (h.contracts contracts).get hash with
    | some (some cs) => (.ok cs, h)
    | _ =>
      let (r, h) := d.getContractState h hash
      (r, match r with
        | .ok cs => h.setContract contracts hash (some cs)
        | .error _ => h)

def getNEP5Balances : DAO → Heap A C N → Bytes → Except DaoError N
  | .simple s, h, acc => s.getNEP5Balances c h acc
  | .cached d _ _ balances _ _, h, acc =>
    match (h.balances balances).get acc with
    | some bs => .ok bs
    | none => d.getNEP5Balances h acc

def getNEP5TransferLog : DAO → Heap A C N → Bytes → UInt32 → Bytes
  | .simple s, h, acc, index => s.getNEP5TransferLog h acc index
  | .cached d _ _ _ transfers _, h, acc, index =>
    match ((h.transfers transfers).get acc).bind (·.get index) with
    | some lg => lg
    | none => d.getNEP5TransferLog h acc index

/-- `GetStorageItem`, which `Cached` takes from the DAO it embeds. -/
def getStorageItem : DAO → Heap A C N → UInt32 → Bytes → Option Bytes
  | .simple s, h, id, key => s.getStorageItem h id key
  | .cached d _ _ _ _ _, h, id, key => d.getStorageItem h id key

/-! ## Writes -/

/-- `PutAccountState`: `Cached` puts the account in its cache only. -/
def putAccountState : DAO → Heap A C N → A → Heap A C N
  | .simple s, h, a => s.putAccountState c h a
  | .cached _ accounts _ _ _ _, h, a =>
    h.setAccount accounts (c.accountHash a) a

/-- `PutContractState`: `Cached` puts the contract in its cache and in the DAO it embeds. -/
def putContractState : DAO → Heap A C N → C → Heap A C N
  | .simple s, h, cs => s.putContractState c h cs
  | .cached d _ contracts _ _ _, h, cs =>
    d.putContractState (h.setContract contracts (c.contractHash cs) (some cs)) cs

/-- `DeleteContractState`: `Cached` puts `nil` in its cache and deletes in the DAO it embeds. -/
def deleteContractState : DAO → Heap A C N → Bytes → Heap A C N
  | .simple s, h, hash => s.deleteContractState h hash
  | .cached d _ contracts _ _ _, h, hash =>
    d.deleteContractState (h.setContract contracts hash none) hash

/-- `PutNEP5Balances`: `Cached` puts the balances in its cache only. -/
def putNEP5Balances : DAO → Heap A C N → Bytes → N → Heap A C N
  | .simple s, h, acc, bs => s.putNEP5Balances c h acc bs
  | .cached _ _ _ balances _ _, h, acc, bs =>
    h.setBalances balances acc bs

/-- `PutNEP5TransferLog`: `Cached` puts the log in its cache only, making the account's map
of logs when it has none. -/
def putNEP5TransferLog : DAO → Heap A C N → Bytes → UInt32 → Bytes → Heap A C N
  | .simple s, h, acc, index, lg => s.putNEP5TransferLog h acc index lg
  | .cached _ _ _ _ transfers _, h, acc, index, lg =>
    h.setTransfers transfers acc ((((h.transfers transfers).get acc).getD []).set index lg)

/-- `PutStorageItem`, which `Cached` takes from the DAO it embeds. -/
def putStorageItem : DAO → Heap A C N → UInt32 → Bytes → Bytes → Heap A C N
  | .simple s, h, id, key, si => s.putStorageItem h id key si
  | .cached d _ _ _ _ _, h, id, key, si => d.putStorageItem h id key si

/-- `DeleteStorageItem`, which `Cached` takes from the DAO it embeds. -/
def deleteStorageItem : DAO → Heap A C N → UInt32 → Bytes → Heap A C N
  | .simple s, h, id, key => s.deleteStorageItem h id key
  | .cached d _ _ _ _ _, h, id, key => d.deleteStorageItem h id key

/-! ## Layers -/

/-- `GetWrapped`: a `Simple` wraps its store in a new layer; a `Cached` wraps the DAO it
embeds and shares its four caches with the new `Cached`. -/
def getWrapped : DAO → Heap A C N → DAO × Heap A C N
  | .simple s, h => let (s, h) := s.getWrapped h; (.simple s, h)
  | .cached d accounts contracts balances transfers _, h =>
    let (d, h) := d.getWrapped h
    (.cached d accounts contracts balances transfers false, h)

/-- `NewCached`: a `Cached` with new caches over `d.GetWrapped()`. -/
def newCached (d : DAO) (h : Heap A C N) : DAO × Heap A C N :=
  let (d, h) := d.getWrapped h
  let (i, h) := h.newCaches
  (.cached d i i i i false, h)

/-- The cached objects of a `Cached` written into the `Simple` it embeds: the accounts
under their own script hashes, the balances, and every transfer log. Go ranges over the maps
in any order; the writes go to distinct keys, so the store reads the same whatever the order. -/
def flushCaches (s : Simple) (accounts balances transfers : Nat) (h : Heap A C N) : Heap A C N :=
  let h := (h.accounts accounts).foldl (fun h e => s.putAccountState c h e.2) h
  let h := (h.balances balances).foldl (fun h e => s.putNEP5Balances c h e.1 e.2) h
  (h.transfers transfers).foldl
    (fun h e => e.2.foldl (fun h l => s.putNEP5TransferLog h e.1 l.1 l.2) h) h

/-- `Persist`, with the DAO after it, or `none` when the call never returns. Over a
`Cached`, it persists the `Simple` under that `Cached` (dropping the lower cache's balances
first when `dropNEP5Cache` is set); its search for that `Simple` goes back to `cd.DAO` on
every round, so it spins forever when one more `Cached` is in between. Over a `Simple`, it
writes its caches into it and persists it. -/
def persist : DAO → Heap A C N → Option (Nat × DAO × Heap A C N)
  | .simple s, h => let (n, h) := s.persist h; some (n, .simple s, h)
  | .cached (.cached (.simple s) la lc lb lt ld) accounts contracts balances transfers drop, h =>
    let (lb, h) := if drop then h.newCaches else (lb, h)
    let (n, h) := s.persist h
    some (n, .cached (.cached (.simple s) la lc lb lt ld) accounts contracts balances transfers drop, h)
  | .cached (.cached (.cached _ _ _ _ _ _) _ _ _ _ _) _ _ _ _ _, _ => none
  | .cached (.simple s) accounts contracts balances transfers drop, h =>
    let (n, h) := s.persist (flushCaches c s accounts balances transfers h)
    some (n, .cached (.simple s) accounts contracts balances transfers drop, h)

end DAO

end NeoGo.Dao
