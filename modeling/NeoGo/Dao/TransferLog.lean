import Mathlib.Algebra.Group.Nat.Basic
import NeoGo.Dao.Dao

/-! # NEP17 transfer logs and their key

`getNEP17TransferLogKey` fills a 25-byte buffer with Go's slice idioms: the prefix at 0, the
account's 20 big-endian bytes copied from 1, and the index's four little-endian bytes put at
`util.Uint160Size`, which is 20, not 21. The index lands on the account's last byte and the
buffer's last byte stays 0, so the key is the prefix, the account's first 19 bytes, the index
and a zero (`getNEP17TransferLogKey_eq`). Two keys are equal exactly when the accounts agree
on their first 19 bytes and the indices are equal (`getNEP17TransferLogKey_eq_iff`), and
`Put`, `Append` and `Get` of `Simple` reach one log for all such accounts.
-/

namespace NeoGo.Dao

/-! ## Go's byte-slice idioms -/

def uint160Size : Nat := 20

/-- `util.Uint160`, by its big-endian bytes (`BytesBE`). -/
structure Uint160 where
  bytesBE : Bytes
  length_bytesBE : bytesBE.length = uint160Size
  deriving DecidableEq

/-- `make([]byte, n)`. -/
def makeBytes (n : Nat) : Bytes := List.replicate n 0

/-- `copy(dst[off:], src)`: as many bytes of `src` as fit in `dst` from offset `off`. -/
def copyAt (dst : Bytes) (off : Nat) (src : Bytes) : Bytes :=
  dst.take off ++ src.take (dst.length - off) ++ dst.drop (off + src.length)

/-- `binary.LittleEndian.PutUint32(dst[off:], v)`, on a buffer with four bytes from `off`. -/
def putUint32At (dst : Bytes) (off : Nat) (v : UInt32) : Bytes := copyAt dst off (le32 v)

theorem copyAt_eq {dst src : Bytes} {off : Nat} (h : off + src.length ≤ dst.length) :
    copyAt dst off src = dst.take off ++ src ++ dst.drop (off + src.length) := by
  rw [copyAt, List.take_of_length_le (show src.length ≤ dst.length - off by omega)]

@[simp] theorem length_le32 (n : UInt32) : (le32 n).length = 4 := rfl

theorem toNat_toUInt8 (x : UInt32) : x.toUInt8.toNat = x.toNat % 256 := by
  simp [UInt32.toUInt8, UInt8.toNat, Nat.toUInt8, UInt8.ofNat, UInt32.toNat]

theorem toNat_shiftRight (x k : UInt32) (hk : k.toNat < 32) :
    (x >>> k).toNat = x.toNat / 2 ^ k.toNat := by
  have hk' : k.toBitVec.toNat < 32 := hk
  show (x.toBitVec >>> (UInt32.mod k 32).toBitVec).toNat = _
  simp [BitVec.toNat_ushiftRight, Nat.shiftRight_eq_div_pow, UInt32.mod, UInt32.toNat,
    Nat.mod_eq_of_lt hk']

/-- Four little-endian bytes determine the `uint32`. -/
theorem le32_injective {m n : UInt32} (h : le32 m = le32 n) : m = n := by
  simp only [le32, List.cons.injEq, and_true] at h
  obtain ⟨h0, h1, h2, h3⟩ := h
  have e0 := congrArg UInt8.toNat h0
  have e1 := congrArg UInt8.toNat h1
  have e2 := congrArg UInt8.toNat h2
  have e3 := congrArg UInt8.toNat h3
  simp only [toNat_toUInt8, toNat_shiftRight _ _ (by decide : (8 : UInt32).toNat < 32),
    toNat_shiftRight _ _ (by decide : (16 : UInt32).toNat < 32),
    toNat_shiftRight _ _ (by decide : (24 : UInt32).toNat < 32)] at e0 e1 e2 e3
  rw [show (8 : UInt32).toNat = 8 from rfl] at e1
  rw [show (16 : UInt32).toNat = 16 from rfl] at e2
  rw [show (24 : UInt32).toNat = 24 from rfl] at e3
  have hm := m.toNat_lt_size
  have hn := n.toNat_lt_size
  simp only [UInt32.size] at hm hn
  exact UInt32.toNat.inj (by omega)

/-! ## The key -/

def getNEP17TransferLogKey (acc : Uint160) (index : UInt32) : Bytes :=
  let key := makeBytes (1 + uint160Size + 4)
  let key := key.set 0 KeyPrefix.stNEP17Transfers.toByte
  let key := copyAt key 1 acc.bytesBE
  putUint32At key uint160Size index

/-- **The key's layout**: the prefix, the account's first 19 bytes, the index, and a zero. -/
theorem getNEP17TransferLogKey_eq (acc : Uint160) (index : UInt32) :
    getNEP17TransferLogKey acc index =
      KeyPrefix.stNEP17Transfers.toByte :: (acc.bytesBE.take 19 ++ le32 index ++ [0]) := by
  obtain ⟨b, hb⟩ := acc
  simp only [uint160Size] at hb
  have hcopy : copyAt ((makeBytes (1 + uint160Size + 4)).set 0 KeyPrefix.stNEP17Transfers.toByte) 1 b =
      KeyPrefix.stNEP17Transfers.toByte :: (b ++ makeBytes 4) := by
    rw [copyAt_eq (by simp [makeBytes, hb, uint160Size])]
    simp [makeBytes, hb, uint160Size]
  simp only [getNEP17TransferLogKey, hcopy, putUint32At]
  rw [copyAt_eq (by simp [makeBytes, hb, uint160Size])]
  simp [uint160Size, makeBytes, List.take_append_of_le_length (by omega : 19 ≤ b.length),
    List.drop_append_eq_append_drop, hb]

/-- **Two keys are equal exactly when the accounts agree on their first 19 bytes and the
indices are equal**: accounts that differ only in their last byte share every key. -/
theorem getNEP17TransferLogKey_eq_iff (a b : Uint160) (i j : UInt32) :
    getNEP17TransferLogKey a i = getNEP17TransferLogKey b j ↔
      a.bytesBE.take 19 = b.bytesBE.take 19 ∧ i = j := by
  rw [getNEP17TransferLogKey_eq, getNEP17TransferLogKey_eq]
  constructor
  · intro h
    simp only [List.cons.injEq, true_and, List.append_assoc] at h
    have h19 : (a.bytesBE.take 19).length = (b.bytesBE.take 19).length := by
      simp [a.length_bytesBE, b.length_bytesBE, uint160Size]
    obtain ⟨h1, h2⟩ := List.append_inj h h19
    exact ⟨h1, le32_injective (List.append_cancel_right h2)⟩
  · rintro ⟨h, rfl⟩
    rw [h]

/-! ## `Simple`'s transfer-log methods -/

/-- Modelled from the spec: the serialisation `NEP17TransferLog.Append` adds for a transfer,
`NEP17TransferLog.Size` and `state.NEP17TransferBatchSize`; the log is its raw bytes. -/
structure TransferCodec (T : Type) where
  encodeTransfer : T → Bytes
  size : Bytes → Nat
  batchSize : Nat

namespace Simple

variable {A C N : Type} (s : Simple) (h : Heap A C N)

theorem get_write_key (key key' : Bytes) (e : Option Bytes) :
    (h.write s.store key e).get s.chain key' = if key' = key then e else h.get s.chain key' := by
  split
  · subst_vars
    exact h.get_write_self _ _ _ _
  · exact h.get_write_ne _ _ (Ne.symm ‹_›) _

/-- `GetNEP17TransferLog`: a missing log reads as a new, empty one. -/
def getNEP17TransferLog (acc : Uint160) (index : UInt32) : Bytes :=
  (h.get s.chain (getNEP17TransferLogKey acc index)).getD []

def putNEP17TransferLog (acc : Uint160) (index : UInt32) (lg : Bytes) : Heap A C N :=
  s.put h (getNEP17TransferLogKey acc index) lg

/-- `AppendNEP17Transfer`: the log, new or read, with the transfer appended and put back, and
whether it has reached the batch size. -/
def appendNEP17Transfer {T : Type} (tc : TransferCodec T) (acc : Uint160) (index : UInt32)
    (isNew : Bool) (tr : T) : Bool × Heap A C N :=
  let lg := if isNew then [] else s.getNEP17TransferLog h acc index
  let lg := lg ++ tc.encodeTransfer tr
  (tc.batchSize ≤ tc.size lg, s.putNEP17TransferLog h acc index lg)

/-- **What a `Put` does to every `Get`**: the log of `(b, j)` is the one put exactly when `b`
agrees with `a` on its first 19 bytes and `j = i`. -/
theorem getNEP17TransferLog_put (a b : Uint160) (i j : UInt32) (lg : Bytes) :
    s.getNEP17TransferLog (s.putNEP17TransferLog h a i lg) b j =
      if a.bytesBE.take 19 = b.bytesBE.take 19 ∧ i = j then lg else s.getNEP17TransferLog h b j := by
  unfold getNEP17TransferLog putNEP17TransferLog put
  split
  · rename_i hab
    rw [(getNEP17TransferLogKey_eq_iff a b i j).mpr hab, chain, Heap.get_write_self]
    rfl
  · rename_i hab
    rw [Heap.get_write_ne _ _ _ fun he => hab ((getNEP17TransferLogKey_eq_iff a b i j).mp he)]

theorem getNEP17TransferLog_append {T : Type} (tc : TransferCodec T) (a b : Uint160) (i j : UInt32)
    (isNew : Bool) (tr : T) :
    s.getNEP17TransferLog (s.appendNEP17Transfer h tc a i isNew tr).2 b j =
      if a.bytesBE.take 19 = b.bytesBE.take 19 ∧ i = j then
        (if isNew then [] else s.getNEP17TransferLog h a i) ++ tc.encodeTransfer tr
      else s.getNEP17TransferLog h b j :=
  s.getNEP17TransferLog_put h a b i j _

end Simple

/-- Two accounts that differ only in their last byte. -/
def accountA : Uint160 := ⟨List.replicate 19 0 ++ [1], by decide⟩

/-- Two accounts that differ only in their last byte. -/
def accountB : Uint160 := ⟨List.replicate 19 0 ++ [2], by decide⟩

/-- **One log for two accounts**: on every `Simple` and store, the log put for `accountA` at
index 0, and the log `accountA`'s transfer is appended to, is what `accountB` reads at index
0. -/
theorem nep17TransferLog_shared_by_last_byte {A C N T : Type} (s : Simple) (h : Heap A C N)
    (lg : Bytes) (tc : TransferCodec T) (tr : T) :
    accountA ≠ accountB ∧
      getNEP17TransferLogKey accountA 0 = getNEP17TransferLogKey accountB 0 ∧
      s.getNEP17TransferLog (s.putNEP17TransferLog h accountA 0 lg) accountB 0 = lg ∧
      s.getNEP17TransferLog (s.appendNEP17Transfer h tc accountA 0 true tr).2 accountB 0 =
        tc.encodeTransfer tr := by
  have hab : accountA.bytesBE.take 19 = accountB.bytesBE.take 19 ∧ (0 : UInt32) = 0 :=
    ⟨by decide, rfl⟩
  refine ⟨by decide, (getNEP17TransferLogKey_eq_iff _ _ _ _).mpr hab, ?_, ?_⟩
  · rw [Simple.getNEP17TransferLog_put, if_pos hab]
  · rw [Simple.getNEP17TransferLog_append, if_pos hab]
    rfl

/-! ## NEP5 transfer logs through any DAO -/

namespace DAO

variable {A C N : Type}

/-- `Cached.AppendNEP5Transfer`, and, modelled from the spec, `Simple.AppendNEP5Transfer`: the
log read through the DAO with the transfer appended, put back through it, and whether it has
reached the batch size. -/
def appendNEP5Transfer {T : Type} (tc : TransferCodec T) (d : DAO) (h : Heap A C N)
    (acc : Bytes) (index : UInt32) (tr : T) : Bool × Heap A C N :=
  let lg := d.getNEP5TransferLog h acc index ++ tc.encodeTransfer tr
  (tc.batchSize ≤ tc.size lg, d.putNEP5TransferLog h acc index lg)

theorem nep5TransferLogKey_inj {a b : Bytes} {i j : UInt32} :
    Simple.nep5TransferLogKey a i = Simple.nep5TransferLogKey b j ↔ a = b ∧ i = j := by
  refine ⟨fun e => ?_, fun e => by rw [e.1, e.2]⟩
  obtain ⟨hab, hij⟩ := List.append_inj' (List.cons.inj e).2 rfl
  exact ⟨hab, le32_injective hij⟩

@[simp] theorem get_setTransfers (h : Heap A C N) (t : Nat) (k : Bytes) (ts : GoMap UInt32 Bytes) :
    ∀ chain key, (h.setTransfers t k ts).get chain key = h.get chain key
  | [], _ => rfl
  | i :: chain, key => by
    simp only [Heap.get]
    rw [get_setTransfers h t k ts chain key]
    rfl

/-- A cached read of a log after the cache map `t` is given the log `lg` at `(acc, index)`. -/
theorem cachedLog_setTransfers (h : Heap A C N) (t t' : Nat) (acc acc' : Bytes)
    (index index' : UInt32) (lg : Bytes) :
    (((h.setTransfers t acc ((((h.transfers t).get acc).getD []).set index lg)).transfers t').get
        acc').bind (·.get index') =
      if t' = t ∧ acc' = acc ∧ index' = index then some lg
      else ((h.transfers t').get acc').bind (·.get index') := by
  by_cases ht : t' = t
  · subst ht
    by_cases ha : acc' = acc
    · subst ha
      by_cases hi : index' = index
      · subst hi; simp [Heap.setTransfers]
      · cases hm : (h.transfers t').get acc' <;>
          simp [Heap.setTransfers, hm, hi, GoMap.get_set_ne _ _ (Ne.symm hi)]
    · simp [Heap.setTransfers, ha, GoMap.get_set_ne _ _ (Ne.symm ha)]
  · simp [Heap.setTransfers, ht, Function.update_noteq ht]

theorem getNEP5TransferLog_setTransfers (h : Heap A C N) (t : Nat) {acc acc' : Bytes}
    {index index' : UInt32} (lg : Bytes) (hk : ¬(acc' = acc ∧ index' = index)) :
    ∀ e : DAO, e.getNEP5TransferLog
        (h.setTransfers t acc ((((h.transfers t).get acc).getD []).set index lg)) acc' index' =
      e.getNEP5TransferLog h acc' index'
  | .simple _ => by simp [getNEP5TransferLog, Simple.getNEP5TransferLog]
  | .cached e _ _ _ t' _ => by
    simp only [getNEP5TransferLog, cachedLog_setTransfers, hk, and_false, if_false,
      getNEP5TransferLog_setTransfers h t lg hk e]

/-- A put of a log through a DAO reads back through it, and every other log reads as before. -/
theorem getNEP5TransferLog_putNEP5TransferLog (h : Heap A C N) (acc acc' : Bytes)
    (index index' : UInt32) (lg : Bytes) :
    ∀ d : DAO, d.getNEP5TransferLog (d.putNEP5TransferLog h acc index lg) acc' index' =
      if acc' = acc ∧ index' = index then lg else d.getNEP5TransferLog h acc' index'
  | .simple s => by
    simp only [getNEP5TransferLog, putNEP5TransferLog, Simple.getNEP5TransferLog,
      Simple.putNEP5TransferLog, Simple.put]
    rw [Simple.get_write_key]
    by_cases hk : acc' = acc ∧ index' = index
    · rw [if_pos (nep5TransferLogKey_inj.mpr hk), if_pos hk]
      rfl
    · rw [if_neg (mt nep5TransferLogKey_inj.mp hk), if_neg hk]
  | .cached d _ _ _ t _ => by
    simp only [getNEP5TransferLog, putNEP5TransferLog, cachedLog_setTransfers, true_and]
    by_cases hk : acc' = acc ∧ index' = index
    · rw [if_pos hk, if_pos hk]
    · rw [if_neg hk, if_neg hk, getNEP5TransferLog_setTransfers h t lg hk d]

/-- **Appends accumulate through any DAO**: after transfers are appended one by one to the log
of `(acc, index)` through a `Simple` or any stack of `Cached`, that log reads as before with
the transfers' encodings after it, in order, and every other log reads as before. -/
theorem getNEP5TransferLog_appendNEP5Transfer_foldl {T : Type} (tc : TransferCodec T) (d : DAO)
    (acc acc' : Bytes) (index index' : UInt32) (trs : List T) (h : Heap A C N) :
    d.getNEP5TransferLog (trs.foldl (fun h tr => (d.appendNEP5Transfer tc h acc index tr).2) h)
        acc' index' =
      if acc' = acc ∧ index' = index then
        d.getNEP5TransferLog h acc index ++ trs.flatMap tc.encodeTransfer
      else d.getNEP5TransferLog h acc' index' := by
  induction trs generalizing h with
  | nil => split <;> simp_all
  | cons tr trs ih =>
    rw [List.foldl_cons, ih, appendNEP5Transfer]
    by_cases hk : acc' = acc ∧ index' = index <;>
      simp [getNEP5TransferLog_putNEP5TransferLog, hk]

end DAO

end NeoGo.Dao
