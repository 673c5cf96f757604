import NeoGo.Dao.Block

/-! # Reading transactions back

`GetTransaction` and `HasTransaction` classify a record under `DataTransaction || hash` by its
length and its byte at offset 4: a dummy version there marks a placeholder that
`StoreAsTransaction` wrote for a conflict. `storeAsTransaction_get` says what the writer
leaves under every key: a placeholder under every hash the conflicts name, else the
transaction under its own hash. A transaction's hash covers its conflicts and none of them
names it, so the transaction reads back with its block index, and every hash its conflicts
name reads as a placeholder.
-/

namespace NeoGo.Dao

/-- Modelled from the spec: `BinReader.ReadU32LE` on the first four bytes, little-endian. -/
def readU32LE (b : Bytes) : UInt32 :=
  UInt32.ofNat ((b.getD 0 0).toNat + 256 * (b.getD 1 0).toNat + 65536 * (b.getD 2 0).toNat +
    16777216 * (b.getD 3 0).toNat)

theorem readU32LE_le32_append (n : UInt32) (rest : Bytes) : readU32LE (le32 n ++ rest) = n := by
  have hn := n.toNat_lt_size
  simp only [UInt32.size] at hn
  apply UInt32.toNat.inj
  simp only [readU32LE, le32, List.cons_append, List.getD_cons_zero, List.getD_cons_succ,
    toNat_toUInt8, toNat_shiftRight _ _ (by decide : (8 : UInt32).toNat < 32),
    toNat_shiftRight _ _ (by decide : (16 : UInt32).toNat < 32),
    toNat_shiftRight _ _ (by decide : (24 : UInt32).toNat < 32)]
  rw [show (8 : UInt32).toNat = 8 from rfl, show (16 : UInt32).toNat = 16 from rfl,
    show (24 : UInt32).toNat = 24 from rfl, UInt32.toNat_ofNat_of_lt (by simp only [UInt32.size]; omega)]
  omega

theorem Uint256.bytesBE_injective : Function.Injective Uint256.bytesBE := by
  rintro ⟨x, _⟩ ⟨y, _⟩ (rfl : x = y)
  rfl

namespace Simple

variable {A C N : Type} (s : Simple) (h : Heap A C N)

/-- `GetTransaction`, with `decode` the transaction's `DecodeBinary` on the bytes after the
index. -/
def getTransaction (decode : Bytes → Option Tx) (hash : Uint256) : Except DaoError (Tx × UInt32) :=
  match h.get s.chain (appendPrefix .dataTransaction hash.bytesBE) with
  | none => .error .errKeyNotFound
  | some b =>
    if b.length < 5 then .error (.message "bad transaction bytes")
    else if b.getD 4 0 = dummyVersion then .error .errKeyNotFound
    else
      let height := readU32LE b
      match decode (b.drop 4) with
      | none => .error .errDecode
      | some tx => .ok (tx, height)

/-- `HasTransaction`; `.ok ()` is its `nil`. -/
def hasTransaction (hash : Uint256) : Except DaoError Unit :=
  match h.get s.chain (appendPrefix .dataTransaction hash.bytesBE) with
  | none => .ok ()
  | some bytes =>
    if bytes.length < 5 then .ok ()
    else if bytes.getD 4 0 = dummyVersion then .error .errHasConflicts
    else .error .errAlreadyExists

theorem getTransaction_hasTransaction_of_get {hash : Uint256} {index : UInt32} {v : UInt8}
    {rest : Bytes} (hg : h.get s.chain (appendPrefix .dataTransaction hash.bytesBE) =
      some (le32 index ++ v :: rest)) (hv : v ≠ dummyVersion) {decode : Bytes → Option Tx}
    {tx : Tx} (hd : decode (v :: rest) = some tx) :
    s.getTransaction h decode hash = .ok (tx, index) ∧
      s.hasTransaction h hash = .error .errAlreadyExists := by
  have hread := readU32LE_le32_append index (v :: rest)
  simp only [le32, List.cons_append, List.nil_append] at hg hread
  exact ⟨by simp [getTransaction, hg, hv, hread, hd], by simp [hasTransaction, hg, hv]⟩

theorem getTransaction_hasTransaction_of_dummy {hash : Uint256} {index : UInt32}
    (hg : h.get s.chain (appendPrefix .dataTransaction hash.bytesBE) =
      some (le32 index ++ [dummyVersion])) (decode : Bytes → Option Tx) :
    s.getTransaction h decode hash = .error .errKeyNotFound ∧
      s.hasTransaction h hash = .error .errHasConflicts := by
  simp only [le32, List.cons_append, List.nil_append] at hg
  exact ⟨by simp [getTransaction, hg], by simp [hasTransaction, hg]⟩

theorem get_foldl_put (value : Bytes) (keys : List Bytes) (h : Heap A C N) (k : Bytes) :
    (keys.foldl (fun h key => s.put h key value) h).get s.chain k =
      if k ∈ keys then some value else h.get s.chain k := by
  induction keys generalizing h with
  | nil => simp
  | cons key keys ih =>
    rw [List.foldl_cons, ih]
    by_cases hk : k = key
    · subst hk; simp
    · simp [hk, get_put_ne s h value (Ne.symm hk)]

/-- The loop over the conflicts, which rewrites one key buffer, puts the value under each
conflict's key. -/
theorem foldl_conflict_puts (value : Bytes) (cs : List Uint256) :
    ∀ (x : Uint256) (h : Heap A C N),
      (cs.foldl (fun (kh : Bytes × Heap A C N) hash =>
          let key := copyAt kh.1 1 hash.bytesBE
          (key, s.put kh.2 key value)) (appendPrefix .dataTransaction x.bytesBE, h)).2 =
        (cs.map fun c => appendPrefix .dataTransaction c.bytesBE).foldl
          (fun h key => s.put h key value) h := by
  induction cs with
  | nil => intro _ _; rfl
  | cons y cs ih =>
    intro x h
    simp only [List.foldl_cons, List.map_cons, appendPrefix, copyAt_hash _ x.length_bytesBE]
    exact ih y _

/-- **What `StoreAsTransaction` leaves.** With P2P signature extensions every conflict's key
holds the index and the dummy version; otherwise the transaction's key holds the index and the
transaction; every other key reads as before. -/
theorem storeAsTransaction_get (tx : Tx) (index : UInt32) (k : Bytes) :
    (s.storeAsTransaction h tx index).get s.chain k =
      if s.version.p2pSigExtensions ∧
          k ∈ tx.conflicts.map (fun c => appendPrefix .dataTransaction c.bytesBE) then
        some (le32 index ++ [dummyVersion])
      else if k = appendPrefix .dataTransaction tx.hash.bytesBE then some (le32 index ++ tx.bytes)
      else h.get s.chain k := by
  have hput : (s.put h (appendPrefix .dataTransaction tx.hash.bytesBE) (le32 index ++ tx.bytes)).get
      s.chain k = if k = appendPrefix .dataTransaction tx.hash.bytesBE then
        some (le32 index ++ tx.bytes) else h.get s.chain k := by
    split
    · subst k; exact get_put_self s h _ _
    · exact get_put_ne s h _ (Ne.symm (by assumption))
  unfold storeAsTransaction
  split
  · rename_i hp
    rw [foldl_conflict_puts, get_foldl_put, hput]
    simp only [hp, true_and]
  · rename_i hp
    simp only [hp, Bool.false_eq_true, false_and, if_false, hput]

theorem mem_conflictKeys {cs : List Uint256} {x : Uint256} :
    appendPrefix .dataTransaction x.bytesBE ∈ cs.map (fun c => appendPrefix .dataTransaction c.bytesBE) ↔
      x ∈ cs := by
  constructor
  · intro hm
    obtain ⟨c, hc, he⟩ := List.mem_map.mp hm
    rwa [← Uint256.bytesBE_injective (List.cons.inj he).2]
  · exact List.mem_map_of_mem _

/-- **The readers agree with the writer.** After `StoreAsTransaction` of a transaction whose
decode inverts its encoding and whose version byte is not the dummy one: the transaction reads
back with its index and exists; and with P2P signature extensions every hash its conflicts
name reads as not found and conflicting. -/
theorem storeAsTransaction_readers {decode : Bytes → Option Tx} {tx : Tx} {v : UInt8}
    (hdec : decode tx.bytes = some tx) (hv : tx.bytes.head? = some v) (hvd : v ≠ dummyVersion)
    (index : UInt32) :
    (s.getTransaction (s.storeAsTransaction h tx index) decode tx.hash = .ok (tx, index) ∧
        s.hasTransaction (s.storeAsTransaction h tx index) tx.hash = .error .errAlreadyExists) ∧
      (s.version.p2pSigExtensions → ∀ c ∈ tx.conflicts,
        s.getTransaction (s.storeAsTransaction h tx index) decode c = .error .errKeyNotFound ∧
        s.hasTransaction (s.storeAsTransaction h tx index) c = .error .errHasConflicts) := by
  obtain ⟨rest, hbytes⟩ := List.head?_eq_some_iff.mp hv
  constructor
  · have hg : (s.storeAsTransaction h tx index).get s.chain
        (appendPrefix .dataTransaction tx.hash.bytesBE) = some (le32 index ++ v :: rest) := by
      rw [storeAsTransaction_get,
        if_neg (by rw [mem_conflictKeys]; exact fun h => tx.hash_not_mem_conflicts h.2),
        if_pos rfl, hbytes]
    exact getTransaction_hasTransaction_of_get s _ hg hvd (hbytes ▸ hdec)
  · intro hp c hc
    have hg : (s.storeAsTransaction h tx index).get s.chain
        (appendPrefix .dataTransaction c.bytesBE) = some (le32 index ++ [dummyVersion]) := by
      rw [storeAsTransaction_get, if_pos ⟨hp, mem_conflictKeys.mpr hc⟩]
    exact getTransaction_hasTransaction_of_dummy s _ hg decode

end Simple

/-! ## A transaction with a conflict -/

/-- A DAO with P2P signature extensions over the empty store. -/
def conflictDAO : Simple × Heap UInt8 UInt8 UInt8 := newSimple 0 [] false true emptyHeap

/-- A transaction of version 0 whose conflict is `hashOf 2`. -/
def conflictingTx : Tx :=
  { hash := hashOf 1, conflicts := [hashOf 2], bytes := [0, 1],
    hash_not_mem_conflicts := by decide }

/-- A decoder for the examples that knows one transaction by its bytes. -/
def decodeOnly (tx : Tx) (b : Bytes) : Option Tx := if b = tx.bytes then some tx else none

theorem decodeOnly_self (tx : Tx) : decodeOnly tx tx.bytes = some tx := if_pos rfl

/-- `conflictingTx` stored at index 7 reads back, and its conflict reads as a placeholder. -/
theorem storeAsTransaction_readers_on_conflictingTx :
    decodeOnly conflictingTx conflictingTx.bytes = some conflictingTx ∧
      conflictingTx.bytes.head? = some 0 ∧ (0 : UInt8) ≠ dummyVersion ∧
      (conflictDAO.1.getTransaction (conflictDAO.1.storeAsTransaction conflictDAO.2 conflictingTx 7)
              (decodeOnly conflictingTx) conflictingTx.hash = .ok (conflictingTx, 7) ∧
          conflictDAO.1.hasTransaction (conflictDAO.1.storeAsTransaction conflictDAO.2 conflictingTx 7)
              conflictingTx.hash = .error .errAlreadyExists) ∧
        (conflictDAO.1.version.p2pSigExtensions → ∀ c ∈ conflictingTx.conflicts,
          conflictDAO.1.getTransaction (conflictDAO.1.storeAsTransaction conflictDAO.2 conflictingTx 7)
              (decodeOnly conflictingTx) c = .error .errKeyNotFound ∧
          conflictDAO.1.hasTransaction (conflictDAO.1.storeAsTransaction conflictDAO.2 conflictingTx 7)
              c = .error .errHasConflicts) :=
  ⟨rfl, rfl, by decide, Simple.storeAsTransaction_readers conflictDAO.1 conflictDAO.2
    (decodeOnly_self conflictingTx) rfl (by decide) 7⟩

end NeoGo.Dao
