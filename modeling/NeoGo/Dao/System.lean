import NeoGo.Dao.Transaction

/-! # System records, contract ids and blocks read back

The DAO keeps four system records under one-byte keys. `StoreAsCurrentBlock` writes the
block's hash, big-endian, and its index; `PutCurrentHeader` writes the bytes it is given, which
the chain builds from the header's hash, little-endian, and its index; `PutStateSyncPoint` and
`PutStateSyncCurrentBlockHeight` write a `uint32`. The getters slice the record without
checking its length, so a record too short for them panics. Each writer sets its own getter's
result to what it wrote and leaves the other three alone (`sysView_sysWrite`), and a write of
any other key leaves all four alone.

`PutContractID`, `DeleteContractID` and `GetContractScriptHash` keep a map from contract ids to
script hashes under `STContractID || u32-LE(id)`: every run of puts and deletes reads as the
map the same updates build (`getContractScriptHash_foldl`). The NEP17 transfer infos are a map
from accounts in the same way, a missing record reading as a new info. `GetBlock` reads back
what `StoreAsBlock` wrote and, after `DeleteBlock`, the block's header alone, with the system
records untouched.
-/

namespace NeoGo.Dao

/-- Modelled from the spec: the prefixes of this module's records, beside `KeyPrefix`, with
neo-go's bytes. `STNEP17TransferInfo` is the later name of `STNEP5Balances`, with the same
byte. -/
inductive SysPrefix where
  | stContractID
  | stNEP17TransferInfo
  | sysCurrentBlock
  | sysCurrentHeader
  | sysStateSyncCurrentBlockHeight
  | sysStateSyncPoint
  deriving DecidableEq

/-- The prefix's byte. -/
def SysPrefix.toByte : SysPrefix → UInt8
  | .stContractID => 0x51
  | .stNEP17TransferInfo => 0x73
  | .sysCurrentBlock => 0xc0
  | .sysCurrentHeader => 0xc1
  | .sysStateSyncCurrentBlockHeight => 0xc2
  | .sysStateSyncPoint => 0xc3

/-- `KeyPrefix.Bytes`: the prefix alone, the key of a system record. -/
def SysPrefix.bytes (p : SysPrefix) : Bytes := [p.toByte]

theorem SysPrefix.bytes_injective {p q : SysPrefix} (h : p.bytes = q.bytes) : p = q := by
  cases p <;> cases q <;> first | rfl | exact absurd h (by decide)

/-- Modelled from the spec: `Uint256.BytesLE`, the big-endian bytes reversed. -/
def Uint256.bytesLE (u : Uint256) : Bytes := u.bytesBE.reverse

/-- Modelled from the spec: `util.Uint256DecodeBytesLE`: 32 bytes, reversed, or its error on
another length. -/
def uint256DecodeBytesLE (b : Bytes) : Except DaoError Uint256 :=
  if hb : b.length = uint256Size then .ok ⟨b.reverse, by rw [List.length_reverse, hb]⟩
  else .error (.message ("expected []byte of size 32 got " ++ toString b.length))

theorem uint256DecodeBytesLE_bytesLE (u : Uint256) : uint256DecodeBytesLE u.bytesLE = .ok u := by
  obtain ⟨b, hb⟩ := u
  simp [uint256DecodeBytesLE, Uint256.bytesLE, hb]

/-- Modelled from the spec: `Uint160.DecodeBinary`: the reader's first 20 bytes, or its error
on fewer. -/
def uint160DecodeBinary (b : Bytes) : Option Uint160 :=
  if hb : uint160Size ≤ b.length then some ⟨b.take uint160Size, List.length_take_of_le hb⟩
  else none

theorem uint160DecodeBinary_bytesBE (u : Uint160) : uint160DecodeBinary u.bytesBE = some u := by
  obtain ⟨b, hb⟩ := u
  rw [uint160DecodeBinary, dif_pos (Nat.le_of_eq hb.symm)]
  congr
  exact List.take_of_length_le (Nat.le_of_eq hb)

theorem Uint160.bytesBE_injective : Function.Injective Uint160.bytesBE := by
  rintro ⟨x, _⟩ ⟨y, _⟩ (rfl : x = y)
  rfl

/-- `makeContractIDKey`: `STContractID`, then the id's four little-endian bytes put at 1 in a
5-byte buffer; the id is the `uint32` the key holds. -/
def makeContractIDKey (id : UInt32) : Bytes :=
  putUint32At ((makeBytes 5).set 0 SysPrefix.stContractID.toByte) 1 id

theorem makeContractIDKey_eq (id : UInt32) :
    makeContractIDKey id = SysPrefix.stContractID.toByte :: le32 id := by
  rw [makeContractIDKey, putUint32At, copyAt_eq (by simp [makeBytes])]
  rfl

theorem makeContractIDKey_inj {i j : UInt32} : makeContractIDKey i = makeContractIDKey j ↔ i = j := by
  simp only [makeContractIDKey_eq, List.cons.injEq, true_and]
  exact ⟨le32_injective, congrArg le32⟩

/-- Modelled from the spec: `state.NEP17TransferInfo`'s serialisation and
`state.NewNEP17TransferInfo`. -/
structure InfoCodec (I : Type) where
  encode : I → Bytes
  decode : Bytes → Option I
  newInfo : I

/-- What the four system getters return. -/
structure SysView where
  currentBlockHeight : Option (Except DaoError UInt32)
  currentHeaderHeight : Option (Except DaoError (UInt32 × Uint256))
  stateSyncPoint : Option (Except DaoError UInt32)
  stateSyncCurrentBlockHeight : Option (Except DaoError UInt32)

/-- A system write as the chain makes it. `PutCurrentHeader` is given the header's hash,
little-endian, and its index (modelled from the spec: the chain's `hashAndIndexToBytes`). -/
inductive SysWrite where
  | storeAsCurrentBlock (hash : Uint256) (index : UInt32)
  | putCurrentHeader (hash : Uint256) (index : UInt32)
  | putStateSyncPoint (p : UInt32)
  | putStateSyncCurrentBlockHeight (height : UInt32)

/-- What each system write sets its getter to. -/
def SysView.update (v : SysView) : SysWrite → SysView
  | .storeAsCurrentBlock _ index => { v with currentBlockHeight := some (.ok index) }
  | .putCurrentHeader hash index => { v with currentHeaderHeight := some (.ok (index, hash)) }
  | .putStateSyncPoint p => { v with stateSyncPoint := some (.ok p) }
  | .putStateSyncCurrentBlockHeight height =>
    { v with stateSyncCurrentBlockHeight := some (.ok height) }

/-- A write of the contract-id map. -/
inductive ContractIDWrite where
  | putContractID (id : UInt32) (hash : Uint160)
  | deleteContractID (id : UInt32)

/-- The contract-id map a write leaves, from what each id read as before. -/
def ContractIDWrite.update (m : UInt32 → Except DaoError Uint160) :
    ContractIDWrite → UInt32 → Except DaoError Uint160
  | .putContractID id hash => Function.update m id (.ok hash)
  | .deleteContractID id => Function.update m id (.error .errKeyNotFound)

theorem mem_txDeletions {p : UInt8} {e : Bool} {tx : Tx} {k : Bytes} (hk : k ∈ txDeletions p e tx) :
    ∃ x : Uint256, k = p :: x.bytesBE ∨ k = KeyPrefix.stNotification.toByte :: x.bytesBE := by
  simp only [txDeletions, List.mem_append, List.mem_map, List.mem_singleton] at hk
  rcases hk with ⟨x, -, rfl⟩ | rfl
  · exact ⟨x, .inl rfl⟩
  · exact ⟨_, .inr rfl⟩

/-- Every key `DeleteBlock` deletes is `DataTransaction` or `STNotification`, then a hash. -/
theorem mem_blockDeletions {e : Bool} {b : Block} {hash : Uint256} {k : Bytes}
    (hk : k ∈ blockDeletions e b hash) : ∃ x : Uint256,
      k = KeyPrefix.dataTransaction.toByte :: x.bytesBE ∨
        k = KeyPrefix.stNotification.toByte :: x.bytesBE := by
  rw [blockDeletions, List.mem_append, List.mem_singleton] at hk
  rcases hk with hk | rfl
  · rcases hb : b.transactions with _ | ⟨tx, txs⟩ <;> rw [hb, loopDeletions] at hk
    · cases hk
    · rw [List.mem_append, List.mem_flatMap] at hk
      rcases hk with hk | ⟨tx', -, hk⟩
      · exact mem_txDeletions hk
      · obtain ⟨x, hx | hx⟩ := mem_txDeletions hk <;> exact ⟨x, .inr hx⟩
  · exact ⟨hash, .inr rfl⟩

namespace Simple

variable {A C N : Type} (s : Simple) (h : Heap A C N)

/-! ## The system records -/

/-- The system getters that read a little-endian `uint32` at offset `off` of the record under
`p`, `binary.LittleEndian.Uint32(b[off:off+4])`. `none` is the panic of the slice on a record
shorter than `off + 4` bytes. -/
def getSysUint32 (p : SysPrefix) (off : Nat) : Option (Except DaoError UInt32) :=
  match h.get s.chain p.bytes with
  | none => some (.error .errKeyNotFound)
  | some b => if off + 4 ≤ b.length then some (.ok (readU32LE (b.drop off))) else none

/-- `GetCurrentBlockHeight`: the index at offset 32 of the current-block record. -/
def getCurrentBlockHeight : Option (Except DaoError UInt32) := s.getSysUint32 h .sysCurrentBlock 32

def getStateSyncPoint : Option (Except DaoError UInt32) := s.getSysUint32 h .sysStateSyncPoint 0

def getStateSyncCurrentBlockHeight : Option (Except DaoError UInt32) :=
  s.getSysUint32 h .sysStateSyncCurrentBlockHeight 0

/-- `GetCurrentHeaderHeight`: the index at offset 32 of the current-header record and the hash
its first 32 bytes hold, little-endian; `none` is the panic of `b[32:36]`. -/
def getCurrentHeaderHeight : Option (Except DaoError (UInt32 × Uint256)) :=
  match h.get s.chain SysPrefix.sysCurrentHeader.bytes with
  | none => some (.error .errKeyNotFound)
  | some b =>
    if 36 ≤ b.length then
      some ((uint256DecodeBytesLE (b.take 32)).map fun hash => (readU32LE (b.drop 32), hash))
    else none

/-- The state-sync putters: the `uint32`, little-endian, under `p`. -/
def putSysUint32 (p : SysPrefix) (v : UInt32) : Heap A C N := s.put h p.bytes (le32 v)

def putStateSyncPoint (p : UInt32) : Heap A C N := s.putSysUint32 h .sysStateSyncPoint p

def putStateSyncCurrentBlockHeight (height : UInt32) : Heap A C N :=
  s.putSysUint32 h .sysStateSyncCurrentBlockHeight height

/-- `PutCurrentHeader`: the bytes it is given, unchecked. -/
def putCurrentHeader (hashAndIndex : Bytes) : Heap A C N :=
  s.put h SysPrefix.sysCurrentHeader.bytes hashAndIndex

/-- `StoreAsCurrentBlock` on an empty buffer, for the block of hash `hash` and index `index`,
the two fields it reads: the hash's `EncodeBinary`, its big-endian bytes, then the index. -/
def storeAsCurrentBlock (hash : Uint256) (index : UInt32) : Heap A C N :=
  s.put h SysPrefix.sysCurrentBlock.bytes (hash.bytesBE ++ le32 index)

/-- The four system getters. -/
def sysView : SysView :=
  ⟨s.getCurrentBlockHeight h, s.getCurrentHeaderHeight h, s.getStateSyncPoint h,
    s.getStateSyncCurrentBlockHeight h⟩

/-- A system write on the DAO. -/
def sysWrite : SysWrite → Heap A C N
  | .storeAsCurrentBlock hash index => s.storeAsCurrentBlock h hash index
  | .putCurrentHeader hash index => s.putCurrentHeader h (hash.bytesLE ++ le32 index)
  | .putStateSyncPoint p => s.putStateSyncPoint h p
  | .putStateSyncCurrentBlockHeight height => s.putStateSyncCurrentBlockHeight h height

theorem sysView_congr {h₁ h₂ : Heap A C N}
    (hk : ∀ p : SysPrefix, h₁.get s.chain p.bytes = h₂.get s.chain p.bytes) :
    s.sysView h₁ = s.sysView h₂ := by
  simp only [sysView, getCurrentBlockHeight, getStateSyncPoint, getStateSyncCurrentBlockHeight,
    getSysUint32, getCurrentHeaderHeight, hk]

theorem getSysUint32_of_get {p : SysPrefix} (pre : Bytes) (v : UInt32)
    (hget : h.get s.chain p.bytes = some (pre ++ le32 v)) :
    s.getSysUint32 h p pre.length = some (.ok v) := by
  simp only [getSysUint32, hget, List.length_append, length_le32, Nat.le_refl, if_true,
    List.drop_left]
  simpa using readU32LE_le32_append v []

theorem getSysUint32_put_ne {p q : SysPrefix} (hq : q ≠ p) (v : Bytes) (off : Nat) :
    s.getSysUint32 (s.put h p.bytes v) q off = s.getSysUint32 h q off := by
  simp only [getSysUint32, s.get_put_ne h v (fun e => hq (SysPrefix.bytes_injective e).symm)]

theorem getCurrentHeaderHeight_put_ne {p : SysPrefix} (hp : p ≠ .sysCurrentHeader) (v : Bytes) :
    s.getCurrentHeaderHeight (s.put h p.bytes v) = s.getCurrentHeaderHeight h := by
  simp only [getCurrentHeaderHeight, s.get_put_ne h v (fun e => hp (SysPrefix.bytes_injective e))]

theorem getCurrentBlockHeight_storeAsCurrentBlock (hash : Uint256) (index : UInt32) :
    s.getCurrentBlockHeight (s.storeAsCurrentBlock h hash index) = some (.ok index) := by
  have hb := s.getSysUint32_of_get (s.storeAsCurrentBlock h hash index) hash.bytesBE index
    (s.get_put_self h _ _)
  rwa [hash.length_bytesBE] at hb

theorem getCurrentHeaderHeight_putCurrentHeader (hash : Uint256) (index : UInt32) :
    s.getCurrentHeaderHeight (s.putCurrentHeader h (hash.bytesLE ++ le32 index)) =
      some (.ok (index, hash)) := by
  have hlen : hash.bytesLE.length = 32 := by
    rw [Uint256.bytesLE, List.length_reverse, hash.length_bytesBE]; rfl
  simp only [getCurrentHeaderHeight, putCurrentHeader, get_put_self, List.length_append, hlen,
    length_le32, List.take_left' hlen, List.drop_left' hlen, uint256DecodeBytesLE_bytesLE]
  rw [← List.append_nil (le32 index), readU32LE_le32_append]
  rfl

theorem getSysUint32_putSysUint32 (p : SysPrefix) (v : UInt32) :
    s.getSysUint32 (s.putSysUint32 h p v) p 0 = some (.ok v) :=
  s.getSysUint32_of_get (s.putSysUint32 h p v) [] v (s.get_put_self h _ _)

/-- **Each system writer sets its own getter to what it wrote and leaves the other three.** -/
theorem sysView_sysWrite (w : SysWrite) : s.sysView (s.sysWrite h w) = (s.sysView h).update w := by
  cases w <;>
  simp only [sysWrite, sysView, SysView.update, getCurrentBlockHeight_storeAsCurrentBlock,
    getCurrentHeaderHeight_putCurrentHeader, getStateSyncPoint, getStateSyncCurrentBlockHeight,
    putStateSyncPoint, putStateSyncCurrentBlockHeight, getSysUint32_putSysUint32] <;>
  simp (disch := decide) only [getCurrentBlockHeight, storeAsCurrentBlock, putCurrentHeader,
    putSysUint32, getSysUint32_put_ne, getCurrentHeaderHeight_put_ne]

theorem sysView_put {key : Bytes} (value : Bytes) (hk : ∀ p : SysPrefix, key ≠ p.bytes) :
    s.sysView (s.put h key value) = s.sysView h :=
  s.sysView_congr fun p => s.get_put_ne h value (hk p)

/-! ## Contract ids and transfer infos -/

theorem getAndDecode_put {α : Type} {decode : Bytes → Option α} {key value : Bytes} {a : α}
    (ha : decode value = some a) (key' : Bytes) :
    s.getAndDecode (s.put h key value) decode key' =
      if key' = key then .ok a else s.getAndDecode h decode key' := by
  rw [getAndDecode, put, get_write_key]
  split_ifs
  · simp [ha]
  · rfl

theorem getAndDecode_delete {α : Type} (decode : Bytes → Option α) (key key' : Bytes) :
    s.getAndDecode (s.delete h key) decode key' =
      if key' = key then .error .errKeyNotFound else s.getAndDecode h decode key' := by
  rw [getAndDecode, delete, get_write_key]
  split_ifs <;> rfl

def deleteContractID (id : UInt32) : Heap A C N := s.delete h (makeContractIDKey id)

/-- `PutContractID`: the hash's big-endian bytes. -/
def putContractID (id : UInt32) (hash : Uint160) : Heap A C N :=
  s.put h (makeContractIDKey id) hash.bytesBE

/-- `GetContractScriptHash`: the hash the reader decodes; the model returns the error alone. -/
def getContractScriptHash (id : UInt32) : Except DaoError Uint160 :=
  s.getAndDecode h uint160DecodeBinary (makeContractIDKey id)

/-- A write of the contract-id map on the DAO. -/
def contractIDWrite : ContractIDWrite → Heap A C N
  | .putContractID id hash => s.putContractID h id hash
  | .deleteContractID id => s.deleteContractID h id

theorem getContractScriptHash_contractIDWrite (w : ContractIDWrite) :
    s.getContractScriptHash (s.contractIDWrite h w) = w.update (s.getContractScriptHash h) := by
  funext id'
  cases w with
  | putContractID id hash =>
    simp only [contractIDWrite, putContractID, getContractScriptHash, ContractIDWrite.update,
      getAndDecode_put _ _ (uint160DecodeBinary_bytesBE hash), makeContractIDKey_inj,
      Function.update_apply]
  | deleteContractID id =>
    simp only [contractIDWrite, deleteContractID, getContractScriptHash, ContractIDWrite.update,
      getAndDecode_delete, makeContractIDKey_inj, Function.update_apply]

/-- **The contract-id records refine a map from ids to hashes**: after any run of
`PutContractID` and `DeleteContractID`, `GetContractScriptHash` reads as the map the same
updates build from what it read before. -/
theorem getContractScriptHash_foldl (ws : List ContractIDWrite) :
    s.getContractScriptHash (ws.foldl s.contractIDWrite h) =
      ws.foldl ContractIDWrite.update (s.getContractScriptHash h) := by
  induction ws generalizing h with
  | nil => rfl
  | cons w ws ih => rw [List.foldl_cons, ih, getContractScriptHash_contractIDWrite, List.foldl_cons]

/-- `GetNEP17TransferInfo`: the account's info decoded, or a new one when it has none. -/
def getNEP17TransferInfo {I : Type} (c : InfoCodec I) (acc : Uint160) : Except DaoError I :=
  match s.getAndDecode h c.decode (SysPrefix.stNEP17TransferInfo.toByte :: acc.bytesBE) with
  | .error .errKeyNotFound => .ok c.newInfo
  | r => r

/-- `PutNEP17TransferInfo`, through `putNEP17TransferInfo` and `putWithBuffer`. -/
def putNEP17TransferInfo {I : Type} (c : InfoCodec I) (acc : Uint160) (bs : I) : Heap A C N :=
  s.put h (SysPrefix.stNEP17TransferInfo.toByte :: acc.bytesBE) (c.encode bs)

/-- **The transfer infos refine a map from accounts**: when the codec reads back what it
writes, after any run of `PutNEP17TransferInfo`, `GetNEP17TransferInfo` reads as the map the
same puts build from what it read before, where an account without a record had a new info. -/
theorem getNEP17TransferInfo_foldl {I : Type} (c : InfoCodec I)
    (hc : ∀ bs, c.decode (c.encode bs) = some bs) (puts : List (Uint160 × I)) :
    s.getNEP17TransferInfo (puts.foldl (fun h p => s.putNEP17TransferInfo h c p.1 p.2) h) c =
      puts.foldl (fun m p => Function.update m p.1 (.ok p.2)) (s.getNEP17TransferInfo h c) := by
  induction puts generalizing h with
  | nil => rfl
  | cons p puts ih =>
    rw [List.foldl_cons, ih, List.foldl_cons]
    congr 1
    funext acc
    simp only [getNEP17TransferInfo, putNEP17TransferInfo, getAndDecode_put _ _ (hc p.2),
      List.cons.injEq, true_and, Uint160.bytesBE_injective.eq_iff, Function.update_apply]
    split_ifs <;> rfl

end Simple

/-- A transfer-info codec for the examples: an info is its bytes. -/
def rawInfoCodec : InfoCodec Bytes := ⟨id, some, []⟩

/-- A `Simple` over the empty store. -/
def sysDAO : Simple × Heap UInt8 UInt8 UInt8 := newSimple 0 [] false false emptyHeap

/-- An account of 20 equal bytes. -/
def accountOf (n : UInt8) : Uint160 := ⟨List.replicate 20 n, rfl⟩

/-- Infos put for two accounts, one of them twice, read as the map of the last puts. -/
theorem getNEP17TransferInfo_foldl_on_two_accounts :
    (∀ bs, rawInfoCodec.decode (rawInfoCodec.encode bs) = some bs) ∧
      sysDAO.1.getNEP17TransferInfo ([(accountOf 1, [1]), (accountOf 2, [2]), (accountOf 1, [3])].foldl
          (fun h p => sysDAO.1.putNEP17TransferInfo h rawInfoCodec p.1 p.2) sysDAO.2) rawInfoCodec =
        [(accountOf 1, [1]), (accountOf 2, [2]), (accountOf 1, [3])].foldl
          (fun m p => Function.update m p.1 (.ok p.2))
          (sysDAO.1.getNEP17TransferInfo sysDAO.2 rawInfoCodec) :=
  ⟨fun _ => rfl, Simple.getNEP17TransferInfo_foldl _ _ _ (fun _ => rfl) _⟩

namespace Simple

variable {A C N : Type} (s : Simple) (h : Heap A C N)

/-! ## Blocks read back -/

/-- `GetBlock`: the trimmed block under `DataBlock || hash`, decoded by
`NewBlockFromTrimmedBytes`. -/
def getBlock (c : BlockCodec) (hash : Uint256) : Except DaoError Block :=
  match h.get s.chain (appendPrefix .dataBlock hash.bytesBE) with
  | none => .error .errKeyNotFound
  | some b =>
    match c.fromTrimmedBytes s.version.stateRootInHeader b with
    | none => .error .errDecode
    | some block => .ok block

/-- **A block's life in the store**: `GetBlock` reads back the block `StoreAsBlock` wrote and,
after `DeleteBlock` succeeds on it, the block with its header alone; the system records read
as before. The codec reads back the trimmed form it writes, and a header followed by a zero
count of transactions as the header alone. -/
theorem getBlock_storeAsBlock_deleteBlock (c : BlockCodec) (b : Block)
    (htrim : c.fromTrimmedBytes s.version.stateRootInHeader (c.trim b) = some b)
    (hheader : c.fromTrimmedBytes s.version.stateRootInHeader (b.header ++ [0]) =
      some { b with transactions := [] }) :
    s.getBlock (s.storeAsBlock h c b) c b.hash = .ok b ∧
      ∃ h', s.deleteBlock (s.storeAsBlock h c b) c b.hash = .ok h' ∧
        s.getBlock h' c b.hash = .ok { b with transactions := [] } ∧
        s.sysView h' = s.sysView h := by
  have hstored : (s.storeAsBlock h c b).get s.chain (appendPrefix .dataBlock b.hash.bytesBE) =
      some (c.trim b) := s.get_put_self h _ _
  obtain ⟨h', hdel, hget⟩ := deleteBlock_get s (s.storeAsBlock h c b) hstored htrim
  have hblock : appendPrefix .dataBlock b.hash.bytesBE ∉
      blockDeletions s.version.p2pSigExtensions b b.hash := fun hk => by
    obtain ⟨x, hx | hx⟩ := mem_blockDeletions hk <;>
      exact absurd (List.cons.inj hx).1 (by decide)
  have hsys : ∀ p : SysPrefix, h'.get s.chain p.bytes = h.get s.chain p.bytes := fun p => by
    have hne : p.bytes ≠ appendPrefix .dataBlock b.hash.bytesBE := fun e => by
      simpa [SysPrefix.bytes, appendPrefix, b.hash.length_bytesBE, uint256Size] using
        congrArg List.length e
    have hnd : p.bytes ∉ blockDeletions s.version.p2pSigExtensions b b.hash := fun hk => by
      obtain ⟨x, hx | hx⟩ := mem_blockDeletions hk <;>
        simpa [SysPrefix.bytes, x.length_bytesBE, uint256Size] using congrArg List.length hx
    rw [hget, if_neg hnd, if_neg hne, storeAsBlock, s.get_put_ne h _ (Ne.symm hne)]
  refine ⟨by simp only [getBlock, hstored, htrim], h', hdel, ?_, s.sysView_congr hsys⟩
  simp only [getBlock, hget, if_neg hblock, if_true, hheader]

end Simple

/-- A block with header `[7]` and one transaction. -/
def oneTxBlock : Block :=
  { hash := hashOf 1, header := [7], transactions := [{ hash := hashOf 2, conflicts := [], bytes := [0] }] }

/-- A trimmed-block codec for the examples: the header, then the count of transactions; it
reads back `oneTxBlock` and its header alone. -/
def oneBlockCodec : BlockCodec where
  trim b := b.header ++ [b.transactions.length.toUInt8]
  fromTrimmedBytes _ bs :=
    if bs = [7, 1] then some oneTxBlock
    else if bs = [7, 0] then some { oneTxBlock with transactions := [] } else none

/-- `oneTxBlock` stored, read back, deleted, and read back as its header. -/
theorem getBlock_storeAsBlock_deleteBlock_on_oneTxBlock :
    (oneBlockCodec.fromTrimmedBytes sysDAO.1.version.stateRootInHeader (oneBlockCodec.trim oneTxBlock) =
        some oneTxBlock ∧
      oneBlockCodec.fromTrimmedBytes sysDAO.1.version.stateRootInHeader (oneTxBlock.header ++ [0]) =
        some { oneTxBlock with transactions := [] }) ∧
    sysDAO.1.getBlock (sysDAO.1.storeAsBlock sysDAO.2 oneBlockCodec oneTxBlock) oneBlockCodec
        oneTxBlock.hash = .ok oneTxBlock ∧
      ∃ h', sysDAO.1.deleteBlock (sysDAO.1.storeAsBlock sysDAO.2 oneBlockCodec oneTxBlock)
          oneBlockCodec oneTxBlock.hash = .ok h' ∧
        sysDAO.1.getBlock h' oneBlockCodec oneTxBlock.hash =
          .ok { oneTxBlock with transactions := [] } ∧
        sysDAO.1.sysView h' = sysDAO.1.sysView sysDAO.2 :=
  ⟨⟨rfl, rfl⟩, Simple.getBlock_storeAsBlock_deleteBlock _ _ _ _ rfl rfl⟩

end NeoGo.Dao
