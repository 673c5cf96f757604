import NeoGo.Dao.TransferLog
import NeoGo.Dao.Wrapped

/-! # Blocks and transactions in the store

`StoreAsBlock` puts a block's trimmed form under `DataBlock || hash`, and `StoreAsTransaction`
puts a transaction under `DataTransaction || hash` and, with P2P signature extensions, a
placeholder under every hash its `Conflicts` attributes name. `DeleteBlock` reads the trimmed
block back and collects its deletions in a batch, building every key in one 33-byte buffer
that it rewrites in place: a prefix byte, then a hash.

The prefix byte is set to `DataTransaction` once, before the loop over the transactions, and
to `STNotification` at the end of every round. `deleteBlock_get` gives the store `DeleteBlock`
leaves: the first transaction's record is deleted under `DataTransaction`, the later ones'
only under `STNotification`; and each round's notification key is that of the last hash
written into the buffer, a conflict's when the transaction names any.
-/

namespace NeoGo.Dao

def uint256Size : Nat := 32

/-- `util.Uint256`, by its big-endian bytes (`BytesBE`). -/
structure Uint256 where
  bytesBE : Bytes
  length_bytesBE : bytesBE.length = uint256Size
  deriving DecidableEq

/-- Modelled from the spec: a transaction as the DAO stores it: its hash, the hashes its
`Conflicts` attributes name, and its serialisation. The hash is taken over the transaction's
fields, its attributes among them, so no `Conflicts` attribute names the transaction's own
hash. -/
structure Tx where
  hash : Uint256
  conflicts : List Uint256
  bytes : Bytes
  hash_not_mem_conflicts : hash ∉ conflicts := by simp

/-- Modelled from the spec: a block: its hash, its header's serialisation and its
transactions. -/
structure Block where
  hash : Uint256
  header : Bytes
  transactions : List Tx

/-- Modelled from the spec: `Block.Trim` and `block.NewBlockFromTrimmedBytes`, which takes
`StateRootInHeader`. -/
structure BlockCodec where
  trim : Block → Bytes
  fromTrimmedBytes : Bool → Bytes → Option Block

/-- Modelled from the spec: `transaction.DummyVersion`, the version byte of a placeholder. -/
def dummyVersion : UInt8 := 255

/-- A `storage.MemBatch`: a put or a deletion per key, the newest first. -/
abbrev Batch := GoMap Bytes (Option Bytes)

theorem copyAt_hash (p : UInt8) {hb : Bytes} (hhb : hb.length = uint256Size) (x : Uint256) :
    copyAt (p :: hb) 1 x.bytesBE = p :: x.bytesBE := by
  rw [copyAt_eq (by simp [hhb, x.length_bytesBE]; omega),
    List.drop_eq_nil_of_le (by simp [hhb, x.length_bytesBE]; omega)]
  simp

/-- Deleting each of `ks` in a batch. -/
def deleteAll (ks : List Bytes) (batch : Batch) : Batch := ks.foldl (fun bt k => bt.set k none) batch

theorem get_deleteAll (ks : List Bytes) (batch : Batch) (k : Bytes) :
    (deleteAll ks batch).get k = if k ∈ ks then some none else batch.get k := by
  induction ks generalizing batch with
  | nil => simp [deleteAll]
  | cons k' ks ih =>
    simp only [deleteAll, List.foldl_cons] at ih ⊢
    rw [ih]
    by_cases hk : k = k'
    · subst hk; simp
    · simp [hk, GoMap.get_set_ne _ _ (Ne.symm hk)]

theorem deleteAll_append (ks ks' : List Bytes) (batch : Batch) :
    deleteAll (ks ++ ks') batch = deleteAll ks' (deleteAll ks batch) := by
  simp [deleteAll, List.foldl_append]

namespace Simple

variable {A C N : Type} (s : Simple) (h : Heap A C N)

def storeAsBlock (c : BlockCodec) (block : Block) : Heap A C N :=
  s.put h (appendPrefix .dataBlock block.hash.bytesBE) (c.trim block)

/-- `StoreAsTransaction`: the block index and the transaction under its hash, then, with P2P
signature extensions, the index and the dummy version under every hash its conflicts name,
written through the same key. -/
def storeAsTransaction (tx : Tx) (index : UInt32) : Heap A C N :=
  let key := appendPrefix .dataTransaction tx.hash.bytesBE
  let h := s.put h key (le32 index ++ tx.bytes)
  if s.version.p2pSigExtensions then
    (tx.conflicts.foldl (fun (kh : Bytes × Heap A C N) hash =>
      let key := copyAt kh.1 1 hash.bytesBE
      (key, s.put kh.2 key (le32 index ++ [dummyVersion]))) (key, h)).2
  else h

/-- `Store.PutBatch` on its layer. -/
def putBatch (batch : Batch) : Heap A C N := batch.foldr (fun e h => h.write s.store e.1 e.2) h

theorem get_putBatch (batch : Batch) (k : Bytes) :
    (s.putBatch h batch).get s.chain k =
      match batch.get k with
      | some e => e
      | none => h.get s.chain k := by
  induction batch with
  | nil => rfl
  | cons e batch ih =>
    simp only [putBatch, List.foldr_cons] at ih ⊢
    by_cases hk : e.1 = k
    · subst hk; simp [GoMap.get, chain]
    · rw [Heap.get_write_ne _ _ _ hk, ih]
      simp [GoMap.get, List.find?_cons, hk]

end Simple

/-- One round of `DeleteBlock`'s loop over the transactions, on the key buffer and the batch:
the transaction's key and, with P2P signature extensions, its conflicts' keys deleted under
the buffer's prefix, then the prefix set to `STNotification` and that key deleted. -/
def deleteTxKeys (p2pSigExtensions : Bool) (kb : Bytes × Batch) (tx : Tx) : Bytes × Batch :=
  let key := copyAt kb.1 1 tx.hash.bytesBE
  let batch := kb.2.set key none
  let kb : Bytes × Batch := if p2pSigExtensions then
      tx.conflicts.foldl (fun (kb : Bytes × Batch) hash =>
        let key := copyAt kb.1 1 hash.bytesBE
        (key, kb.2.set key none)) (key, batch)
    else (key, batch)
  let key := kb.1.set 0 KeyPrefix.stNotification.toByte
  (key, kb.2.set key none)

/-- `Simple.DeleteBlock`: the block's record overwritten with its header and a zero byte, and
the keys the loop builds deleted, in one batch. -/
def Simple.deleteBlock {A C N : Type} (s : Simple) (h : Heap A C N) (c : BlockCodec)
    (hash : Uint256) : Except DaoError (Heap A C N) :=
  let key := copyAt ((makeBytes (uint256Size + 1)).set 0 KeyPrefix.dataBlock.toByte) 1 hash.bytesBE
  match h.get s.chain key with
  | none => .error .errKeyNotFound
  | some bs =>
    match c.fromTrimmedBytes s.version.stateRootInHeader bs with
    | none => .error .errDecode
    | some b =>
      let batch : Batch := GoMap.set [] key (some (b.header ++ [0]))
      let key := key.set 0 KeyPrefix.dataTransaction.toByte
      let kb := b.transactions.foldl (deleteTxKeys s.version.p2pSigExtensions) (key, batch)
      let key := copyAt (kb.1.set 0 KeyPrefix.stNotification.toByte) 1 hash.bytesBE
      .ok (s.putBatch h (kb.2.set key none))

/-! ## The keys `DeleteBlock` deletes -/

/-- The keys one round deletes when the buffer's prefix is `p`: the transaction's and, with
P2P signature extensions, its conflicts', under `p`; then the notification key of the last of
those hashes. -/
def txDeletions (p : UInt8) (p2pSigExtensions : Bool) (tx : Tx) : List Bytes :=
  let hs := tx.hash :: (if p2pSigExtensions then tx.conflicts else [])
  hs.map (fun x => p :: x.bytesBE) ++
    [KeyPrefix.stNotification.toByte :: (hs.getLast (List.cons_ne_nil _ _)).bytesBE]

/-- The keys the loop deletes when its first round starts with prefix `p`: every later round
starts with `STNotification`. -/
def loopDeletions (p : UInt8) (p2pSigExtensions : Bool) : List Tx → List Bytes
  | [] => []
  | tx :: txs =>
    txDeletions p p2pSigExtensions tx ++
      txs.flatMap (txDeletions KeyPrefix.stNotification.toByte p2pSigExtensions)

/-- Every key `DeleteBlock` deletes for the block `b` of hash `hash`. -/
def blockDeletions (p2pSigExtensions : Bool) (b : Block) (hash : Uint256) : List Bytes :=
  loopDeletions KeyPrefix.dataTransaction.toByte p2pSigExtensions b.transactions ++
    [KeyPrefix.stNotification.toByte :: hash.bytesBE]

theorem foldl_conflicts (p : UInt8) (x : Uint256) (cs : List Uint256) (batch : Batch) :
    cs.foldl (fun (kb : Bytes × Batch) hash =>
        let key := copyAt kb.1 1 hash.bytesBE
        (key, kb.2.set key none)) (p :: x.bytesBE, batch) =
      (p :: ((x :: cs).getLast (List.cons_ne_nil _ _)).bytesBE,
        deleteAll (cs.map fun y => p :: y.bytesBE) batch) := by
  induction cs generalizing x batch with
  | nil => rfl
  | cons y cs ih =>
    simp only [List.foldl_cons, copyAt_hash p x.length_bytesBE, ih, List.map_cons]
    rw [List.getLast_cons (List.cons_ne_nil _ _)]
    rfl

/-- **One round of the loop**, on a buffer with prefix `p`. -/
theorem deleteTxKeys_eq (p2pSigExtensions : Bool) (p : UInt8) {hb : Bytes}
    (hhb : hb.length = uint256Size) (batch : Batch) (tx : Tx) :
    ∃ hb', hb'.length = uint256Size ∧
      deleteTxKeys p2pSigExtensions (p :: hb, batch) tx =
        (KeyPrefix.stNotification.toByte :: hb',
          deleteAll (txDeletions p p2pSigExtensions tx) batch) := by
  cases p2pSigExtensions
  · exact ⟨tx.hash.bytesBE, tx.hash.length_bytesBE, by
      simp [deleteTxKeys, copyAt_hash p hhb, txDeletions, deleteAll]⟩
  · refine ⟨((tx.hash :: tx.conflicts).getLast (List.cons_ne_nil _ _)).bytesBE,
      Uint256.length_bytesBE _, ?_⟩
    simp only [deleteTxKeys, if_true, copyAt_hash p hhb, foldl_conflicts, txDeletions,
      List.map_cons, List.set_cons_zero]
    rw [deleteAll_append]
    rfl

/-- **The whole loop**: the first round deletes under the prefix it starts with, every later
round under `STNotification`. -/
theorem foldl_deleteTxKeys (p2pSigExtensions : Bool) :
    ∀ (txs : List Tx) (p : UInt8) (hb : Bytes) (batch : Batch), hb.length = uint256Size →
      ∃ q hb', hb'.length = uint256Size ∧
        txs.foldl (deleteTxKeys p2pSigExtensions) (p :: hb, batch) =
          (q :: hb', deleteAll (loopDeletions p p2pSigExtensions txs) batch)
  | [], p, hb, batch, hhb => ⟨p, hb, hhb, rfl⟩
  | tx :: txs, p, hb, batch, hhb => by
    obtain ⟨hb₁, hhb₁, hstep⟩ := deleteTxKeys_eq p2pSigExtensions p hhb batch tx
    obtain ⟨q, hb', hhb', hrest⟩ := foldl_deleteTxKeys p2pSigExtensions txs _ hb₁ _ hhb₁
    refine ⟨q, hb', hhb', ?_⟩
    rw [List.foldl_cons, hstep, hrest, loopDeletions, deleteAll_append]
    congr 2
    cases txs <;> simp [loopDeletions]

/-- **What `DeleteBlock` leaves.** When the store holds a trimmed block under the hash, every
key reads as deleted if the loop built it, the block's key reads as its header and a zero
byte, and every other key reads as before. -/
theorem deleteBlock_get {A C N : Type} (s : Simple) (h : Heap A C N) {c : BlockCodec}
    {hash : Uint256} {bs : Bytes} {b : Block}
    (hget : h.get s.chain (appendPrefix .dataBlock hash.bytesBE) = some bs)
    (hdec : c.fromTrimmedBytes s.version.stateRootInHeader bs = some b) :
    ∃ h', s.deleteBlock h c hash = .ok h' ∧ ∀ k, h'.get s.chain k =
      if k ∈ blockDeletions s.version.p2pSigExtensions b hash then none
      else if k = appendPrefix .dataBlock hash.bytesBE then some (b.header ++ [0])
      else h.get s.chain k := by
  have hkey : copyAt ((makeBytes (uint256Size + 1)).set 0 KeyPrefix.dataBlock.toByte) 1
      hash.bytesBE = appendPrefix .dataBlock hash.bytesBE :=
    copyAt_hash _ (by simp [makeBytes, uint256Size]) hash
  obtain ⟨q, hb', hhb', hloop⟩ := foldl_deleteTxKeys s.version.p2pSigExtensions b.transactions
    KeyPrefix.dataTransaction.toByte hash.bytesBE
    (GoMap.set [] (appendPrefix .dataBlock hash.bytesBE) (some (b.header ++ [0])))
    hash.length_bytesBE
  refine ⟨s.putBatch h ((deleteAll (loopDeletions KeyPrefix.dataTransaction.toByte
      s.version.p2pSigExtensions b.transactions) (GoMap.set [] (appendPrefix .dataBlock hash.bytesBE)
        (some (b.header ++ [0])))).set (KeyPrefix.stNotification.toByte :: hash.bytesBE) none), ?_,
    fun k => ?_⟩
  · simp only [Simple.deleteBlock, hkey, hget, hdec]
    simp only [appendPrefix, List.set_cons_zero] at hloop ⊢
    rw [hloop, List.set_cons_zero, copyAt_hash _ hhb']
  · rw [Simple.get_putBatch, blockDeletions]
    simp only [appendPrefix]
    by_cases hn : k = KeyPrefix.stNotification.toByte :: hash.bytesBE
    · subst hn; simp
    · rw [GoMap.get_set_ne _ _ (Ne.symm hn), get_deleteAll]
      by_cases hd : k ∈ loopDeletions KeyPrefix.dataTransaction.toByte s.version.p2pSigExtensions
          b.transactions
      · simp [hd]
      · by_cases hb : k = KeyPrefix.dataBlock.toByte :: hash.bytesBE
        · subst hb; simp [hd, hn]
        · simp [hd, hn, hb, GoMap.get_set_ne _ _ (Ne.symm hb)]

/-! ## Deleting a block of two transactions -/

/-- A hash of 32 equal bytes. -/
def hashOf (n : UInt8) : Uint256 := ⟨List.replicate 32 n, by simp [uint256Size]⟩

/-- A codec for blocks whose hashes each repeat one byte: the trimmed form is the header
followed by one byte per transaction hash, and decoding gives the block back with trimmed
transactions (no conflicts, no body), its hash the header's byte repeated. -/
def exampleCodec : BlockCodec where
  trim b := b.header ++ b.transactions.map fun tx => tx.hash.bytesBE.headD 0
  fromTrimmedBytes _ bs := match bs with
    | [] => none
    | h0 :: txs => some
        { hash := hashOf h0
          header := [h0]
          transactions := txs.map fun n => { hash := hashOf n, conflicts := [], bytes := [] } }

/-- The block of hash `hashOf 9` with the transactions of hashes `hashOf 1` and `hashOf 2`. -/
def twoTxBlock : Block :=
  { hash := hashOf 9, header := [9],
    transactions := [{ hash := hashOf 1, conflicts := [], bytes := [1] },
      { hash := hashOf 2, conflicts := [], bytes := [2] }] }

/-- A `Simple` over the empty store, and the store after `StoreAsBlock` of `twoTxBlock` and
`StoreAsTransaction` of its two transactions at index 0. -/
def storedBlock : Simple × Heap UInt8 UInt8 UInt8 :=
  let (s, h) := newSimple 0 [] false false emptyHeap
  let h := s.storeAsBlock h exampleCodec twoTxBlock
  let h := twoTxBlock.transactions.foldl (fun h tx => s.storeAsTransaction h tx 0) h
  (s, h)

/-- **`DeleteBlock` keeps the second transaction**: after it, the first transaction's record
is gone, the second's still reads as stored, and the block's record is its header and a zero
byte. -/
theorem deleteBlock_keeps_second_transaction :
    (storedBlock.1.deleteBlock storedBlock.2 exampleCodec (hashOf 9)).map
        (fun h => (h.get storedBlock.1.chain (appendPrefix .dataTransaction (hashOf 1).bytesBE),
          h.get storedBlock.1.chain (appendPrefix .dataTransaction (hashOf 2).bytesBE),
          h.get storedBlock.1.chain (appendPrefix .dataBlock (hashOf 9).bytesBE))) =
      .ok (none, some (le32 0 ++ [2]), some [9, 0]) :=
  rfl

end NeoGo.Dao
