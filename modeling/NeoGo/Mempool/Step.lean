import NeoGo.Mempool.Pool

/-! # What each pool operation does to each field

One equation per operation and field, so that the invariants never unfold an operation.
`Add` is cut at `checkTxConflicts` (which touches only `fees`) and `insert`; under the
ordering invariant, `insert`'s list is `(L.orderedInsert Outranks p).take capacity` on every
path, the `ErrOOM` one included, and the binary search and the slice shuffling disappear.
-/

namespace NeoGo.Mempool

open NeoGo.Sort

variable {H S I : Type} [LinearOrder H] [DecidableEq S] [LinearOrder I]

/-- The sender's entry once `checkBalanceAndUpdate` has looked at it: the stored one, or a
fresh one with the balance `feer` reports. -/
def senderEntry (fees : S → Option UtilityBalanceAndFees) (feer : Feer S) (s : S) :
    UtilityBalanceAndFees :=
  (fees s).getD { balance := feer.getUtilityTokenBalance s }

/-- `balance >= feeSum + SystemFee + NetworkFee`, in `int64`. -/
def UtilityBalanceAndFees.covers (e : UtilityBalanceAndFees) (tx : Transaction H S I) : Bool :=
  !e.balance.slt (e.feeSum + tx.systemFee + tx.networkFee)

namespace Pool

/-- The balance snapshot `checkBalanceAndUpdate` stores. -/
def snapshot (mp : Pool H S I) (s : S) (feer : Feer S) : Pool H S I :=
  { mp with fees := Function.update mp.fees s (some (senderEntry mp.fees feer s)) }

omit [LinearOrder H] [LinearOrder I] in
theorem checkBalanceAndUpdate_eq (mp : Pool H S I) (tx : Transaction H S I) (feer : Feer S) :
    mp.checkBalanceAndUpdate tx feer =
      ((senderEntry mp.fees feer tx.sender).covers tx, mp.snapshot tx.sender feer) := by
  cases hs : mp.fees tx.sender with
  | none => simp [checkBalanceAndUpdate, hs, snapshot, senderEntry, UtilityBalanceAndFees.covers]
  | some e =>
    have hfees : Function.update mp.fees tx.sender (some e) = mp.fees := by
      rw [← hs, Function.update_eq_self]
    simp [checkBalanceAndUpdate, hs, snapshot, senderEntry, UtilityBalanceAndFees.covers, hfees]

section

omit [LinearOrder H] [LinearOrder I]

@[simp] theorem snapshot_verifiedMap (mp : Pool H S I) (s : S) (feer : Feer S) :
    (mp.snapshot s feer).verifiedMap = mp.verifiedMap := rfl
@[simp] theorem snapshot_verifiedTxes (mp : Pool H S I) (s : S) (feer : Feer S) :
    (mp.snapshot s feer).verifiedTxes = mp.verifiedTxes := rfl
@[simp] theorem snapshot_inputs (mp : Pool H S I) (s : S) (feer : Feer S) :
    (mp.snapshot s feer).inputs = mp.inputs := rfl
@[simp] theorem snapshot_capacity (mp : Pool H S I) (s : S) (feer : Feer S) :
    (mp.snapshot s feer).capacity = mp.capacity := rfl

end

omit [LinearOrder H] in
theorem checkTxConflicts_eq (mp : Pool H S I) (tx : Transaction H S I) (fee : Feer S) :
    mp.checkTxConflicts tx fee =
      if areInputsInPool tx.inputs mp.inputs then (false, mp)
      else ((senderEntry mp.fees fee tx.sender).covers tx, mp.snapshot tx.sender fee) := by
  rw [checkTxConflicts, checkBalanceAndUpdate_eq]

omit [LinearOrder H] in
theorem checkTxConflicts_snd (mp : Pool H S I) (tx : Transaction H S I) (fee : Feer S) :
    (mp.checkTxConflicts tx fee).2 = mp ∨ (mp.checkTxConflicts tx fee).2 = mp.snapshot tx.sender fee := by
  rw [checkTxConflicts_eq]; split <;> simp

/-- The item `Add` wraps `t` in. -/
def addItem (t : Transaction H S I) (fee : Feer S) : Item H S I :=
  { txn := t, isLowPrio := fee.isLowPriority t.networkFee }

omit [LinearOrder H] [DecidableEq S] [LinearOrder I] in
@[simp] theorem addItem_txn (t : Transaction H S I) (fee : Feer S) : (addItem t fee).txn = t := rfl

/-- **`Add` is `checkTxConflicts`, the duplicate check, then `insert`.** -/
theorem add_eq (mp : Pool H S I) (t : Transaction H S I) (fee : Feer S) :
    mp.add t fee =
      if (mp.checkTxConflicts t fee).1 = false then ((mp.checkTxConflicts t fee).2, some .errConflict)
      else if (mp.checkTxConflicts t fee).2.containsKey t.hash then
        ((mp.checkTxConflicts t fee).2, some .errDup)
      else (mp.checkTxConflicts t fee).2.insert (addItem t fee) := by
  simp only [add]
  cases (mp.checkTxConflicts t fee).1 <;> rfl

omit [LinearOrder H] in
theorem checkTxConflicts_capacity (mp : Pool H S I) (tx : Transaction H S I) (fee : Feer S) :
    (mp.checkTxConflicts tx fee).2.capacity = mp.capacity := by
  rcases checkTxConflicts_snd mp tx fee with he | he <;> rw [he]; rfl

/-! ## `insert` -/

section Insert

variable {mp : Pool H S I} {p : Item H S I}

/-- A list sorted by `Outranks` in which no item has `p`'s hash. -/
structure Fits (L : List (Item H S I)) (p : Item H S I) : Prop where
  sorted : L.Pairwise Item.Outranks
  fresh : ∀ x ∈ L, x.txn.hash ≠ p.txn.hash

section

omit [DecidableEq S] [LinearOrder I]

theorem Fits.comparable {L : List (Item H S I)} (h : Fits L p) (x : Item H S I) (hx : x ∈ L) :
    p.Outranks x ∨ x.Outranks p :=
  outranks_or_of_hash_ne (h.fresh x hx).symm

theorem Fits.orderedInsert_sorted {L : List (Item H S I)} (h : Fits L p) :
    (L.orderedInsert Item.Outranks p).Pairwise Item.Outranks :=
  Pairwise.orderedInsert _ h.sorted h.comparable

theorem Fits.orderedInsert {L : List (Item H S I)} (h : Fits L p) {q : Item H S I}
    (hq : ∀ x ∈ L, x.txn.hash ≠ q.txn.hash) (hpq : p.txn.hash ≠ q.txn.hash) :
    Fits (L.orderedInsert Item.Outranks p) q :=
  ⟨h.orderedInsert_sorted, fun x hx => by
    rcases (List.mem_orderedInsert _).mp hx with rfl | hx
    · exact hpq
    · exact hq x hx⟩

theorem insertIndex_eq {L : List (Item H S I)} (h : Fits L p) :
    insertIndex L p = L.findIdx fun x => decide (p.Outranks x) :=
  search_eq_findIdx L _ (h.sorted.imp fun hab hpa =>
    decide_eq_true (trans_of Item.Outranks (of_decide_eq_true hpa) hab))

theorem orderedInsert_eq {L : List (Item H S I)} (h : Fits L p) :
    L.orderedInsert Item.Outranks p = L.take (insertIndex L p) ++ p :: L.drop (insertIndex L p) := by
  rw [insertIndex_eq h, orderedInsert_eq_take_drop_findIdx]

/-- A descending list has one place for `p`: before the first item `p` outranks. -/
theorem eq_findIdx_of_pairwise {L : List (Item H S I)} {j : Nat} (hj : j ≤ L.length)
    (hs : (L.take j ++ p :: L.drop j).Pairwise Item.Outranks) :
    j = L.findIdx fun x => decide (p.Outranks x) := by
  induction L generalizing j with
  | nil => simpa using hj
  | cons x L ih =>
    cases j with
    | zero =>
      have hpx : p.Outranks x := List.rel_of_pairwise_cons hs (List.mem_cons_self _ _)
      simp [List.findIdx_cons, hpx]
    | succ j =>
      rw [List.take_succ_cons, List.drop_succ_cons, List.cons_append, List.pairwise_cons] at hs
      have hxp : ¬ p.Outranks x := not_outranks_both (hs.1 p (by simp))
      simp [List.findIdx_cons, hxp, ← ih (by simpa using hj) hs.2]

end

section

omit [LinearOrder H] [DecidableEq S] [LinearOrder I]

theorem placeAt_append {L : List (Item H S I)} {n : Nat} (hn : n ≤ L.length) :
    placeAt (L ++ [p]) n p = L.take n ++ p :: L.drop n := by
  unfold placeAt
  split
  · rename_i h
    simp only [List.length_append, List.length_singleton, Nat.add_sub_cancel] at h
    rw [shiftRight_set _ (by simp; omega), List.take_append_of_le_length hn,
      List.drop_append_of_le_length hn, List.dropLast_concat]
  · rename_i h
    simp only [List.length_append, List.length_singleton, Nat.add_sub_cancel, ne_eq,
      Decidable.not_not] at h
    rw [h, List.take_length, List.drop_length]

theorem set_length_sub_one (L : List (Item H S I)) (hL : L ≠ []) :
    L.set (L.length - 1) p = L.dropLast ++ [p] := by
  conv_lhs => rw [← List.dropLast_append_getLast hL]
  rw [List.set_append_right _ _ (by simp)]
  simp

theorem placeAt_set_last {L : List (Item H S I)} {n : Nat} (hn : n < L.length) :
    placeAt (L.set (L.length - 1) p) n p = (L.take n ++ p :: L.drop n).dropLast := by
  rw [← take_append_cons_drop_dropLast _ _ _ hn, set_length_sub_one L (List.ne_nil_of_length_pos
    (by omega)), placeAt_append (by simp; omega), List.dropLast_eq_take, List.dropLast_eq_take,
    List.take_take, List.drop_take, List.length_drop]
  congr 2
  · omega
  · congr 1; omega

end

section

omit [LinearOrder H]

@[simp] theorem placeItem_verifiedTxes (mp : Pool H S I) (n : Nat) (p : Item H S I) :
    (mp.placeItem n p).verifiedTxes = placeAt mp.verifiedTxes n p := rfl
@[simp] theorem placeItem_verifiedMap (mp : Pool H S I) (n : Nat) (p : Item H S I) :
    (mp.placeItem n p).verifiedMap = mp.verifiedMap := rfl
@[simp] theorem placeItem_inputs (mp : Pool H S I) (n : Nat) (p : Item H S I) :
    (mp.placeItem n p).inputs = p.txn.inputs.foldl pushInputToSortedSlice mp.inputs := rfl
@[simp] theorem placeItem_fees (mp : Pool H S I) (n : Nat) (p : Item H S I) :
    (mp.placeItem n p).fees = (mp.addSendersFee p.txn).fees := rfl
@[simp] theorem placeItem_capacity (mp : Pool H S I) (n : Nat) (p : Item H S I) :
    (mp.placeItem n p).capacity = mp.capacity := rfl

end

section

omit [DecidableEq S] [LinearOrder I]

@[simp] theorem evictLast_verifiedTxes (mp : Pool H S I) (p : Item H S I) :
    (mp.evictLast p).verifiedTxes = mp.verifiedTxes.set (mp.verifiedTxes.length - 1) p := by
  cases hu : mp.verifiedTxes.getLast? with
  | none => simp [evictLast, hu, List.getLast?_eq_none_iff.mp hu]
  | some u => simp [evictLast, hu]

theorem evictLast_verifiedMap_of_getLast? (mp : Pool H S I) (p : Item H S I) {u : Item H S I}
    (hu : mp.verifiedTxes.getLast? = some u) :
    (mp.evictLast p).verifiedMap = Function.update mp.verifiedMap u.txn.hash none := by
  simp [evictLast, hu]

@[simp] theorem evictLast_inputs (mp : Pool H S I) (p : Item H S I) :
    (mp.evictLast p).inputs = mp.inputs := by
  cases hu : mp.verifiedTxes.getLast? <;> simp [evictLast, hu]
@[simp] theorem evictLast_fees (mp : Pool H S I) (p : Item H S I) :
    (mp.evictLast p).fees = mp.fees := by
  cases hu : mp.verifiedTxes.getLast? <;> simp [evictLast, hu]
@[simp] theorem evictLast_capacity (mp : Pool H S I) (p : Item H S I) :
    (mp.evictLast p).capacity = mp.capacity := by
  cases hu : mp.verifiedTxes.getLast? <;> simp [evictLast, hu]

end

omit [LinearOrder H] [DecidableEq S] [LinearOrder I] in
theorem getLast?_of_lt {L : List (Item H S I)} {n : Nat} (hn : n < L.length) :
    ∃ u, L.getLast? = some u ∧ u ∈ L := by
  have hne : L ≠ [] := List.ne_nil_of_length_pos (by omega : 0 < L.length)
  obtain ⟨u, hu⟩ := Option.isSome_iff_exists.mp (List.getLast?_isSome.mpr hne)
  exact ⟨u, hu, List.mem_of_getLast?_eq_some hu⟩

/-- The list `insert` leaves, on each path: the inserted list, truncated to the capacity. -/
theorem insert_verifiedTxes (h : Fits mp.verifiedTxes p) (hc : mp.verifiedTxes.length ≤ mp.capacity) :
    (mp.insert p).1.verifiedTxes = (mp.verifiedTxes.orderedInsert Item.Outranks p).take mp.capacity := by
  have hle : insertIndex mp.verifiedTxes p ≤ mp.verifiedTxes.length := search_le _ _
  rw [orderedInsert_eq h]
  simp only [insert]
  split
  · rename_i hfull
    split
    · rename_i hn
      simp [hn, ← hfull]
    · simp only [placeItem_verifiedTxes, evictLast_verifiedTxes]
      rw [placeAt_set_last (by omega), List.dropLast_eq_take]
      simp only [List.length_append, List.length_take, List.length_cons, List.length_drop, ← hfull]
      congr 1
      omega
  · rw [placeItem_verifiedTxes, placeAt_append hle]
    exact (List.take_of_length_le (by simp; omega)).symm

omit [DecidableEq S] [LinearOrder I] in
theorem insertIndex_eq_length_iff {L : List (Item H S I)} (h : Fits L p) :
    insertIndex L p = L.length ↔ ∀ x ∈ L, ¬ p.Outranks x := by
  rw [insertIndex_eq h, List.findIdx_eq_length]; simp

theorem insert_snd (h : Fits mp.verifiedTxes p) :
    (mp.insert p).2 = if mp.verifiedTxes.length = mp.capacity ∧ ∀ x ∈ mp.verifiedTxes, ¬ p.Outranks x
      then some .errOOM else none := by
  have hn := insertIndex_eq_length_iff h
  by_cases hfull : mp.verifiedTxes.length = mp.capacity
  · by_cases hidx : insertIndex mp.verifiedTxes p = mp.verifiedTxes.length
    · rw [if_pos ⟨hfull, hn.mp hidx⟩]; simp [insert, hfull, hidx]
    · rw [if_neg fun h' => hidx (hn.mpr h'.2)]
      simp [insert, hfull, show insertIndex mp.verifiedTxes p ≠ mp.capacity from hfull ▸ hidx]
  · rw [if_neg fun h' => hfull h'.1]; simp [insert, hfull]

theorem insert_fst_of_errOOM (hfull : mp.verifiedTxes.length = mp.capacity)
    (hn : insertIndex mp.verifiedTxes p = mp.verifiedTxes.length) :
    (mp.insert p).1 = { mp with verifiedMap := Function.update mp.verifiedMap p.txn.hash (some p) } := by
  simp [insert, hfull, hn]

@[simp] theorem insert_capacity : (mp.insert p).1.capacity = mp.capacity := by
  simp only [insert]
  split
  · split <;> simp
  · rfl

theorem insert_of_lt (hlt : mp.verifiedTxes.length < mp.capacity) :
    (mp.insert p).2 = none ∧
    (mp.insert p).1.verifiedMap = Function.update mp.verifiedMap p.txn.hash (some p) ∧
    (mp.insert p).1.inputs = p.txn.inputs.foldl pushInputToSortedSlice mp.inputs ∧
    (mp.insert p).1.fees = (mp.addSendersFee p.txn).fees := by
  simp [insert, hlt.ne, addSendersFee]

theorem insert_of_full (hfull : mp.verifiedTxes.length = mp.capacity)
    (hidx : insertIndex mp.verifiedTxes p ≠ mp.verifiedTxes.length) {u : Item H S I}
    (hu : mp.verifiedTxes.getLast? = some u) :
    (mp.insert p).2 = none ∧
    (mp.insert p).1.verifiedMap =
      Function.update (Function.update mp.verifiedMap p.txn.hash (some p)) u.txn.hash none ∧
    (mp.insert p).1.inputs = p.txn.inputs.foldl pushInputToSortedSlice mp.inputs ∧
    (mp.insert p).1.fees = (mp.addSendersFee p.txn).fees := by
  simp only [insert, hfull, if_true, if_neg hidx.symm, if_neg (hfull ▸ hidx)]
  refine ⟨by simp, ?_, by simp, by simp [addSendersFee]⟩
  simp only [placeItem_verifiedMap]
  exact evictLast_verifiedMap_of_getLast? _ _ hu

theorem insert_verifiedTxes_perm_of_lt (h : Fits mp.verifiedTxes p)
    (hlt : mp.verifiedTxes.length < mp.capacity) :
    (mp.insert p).1.verifiedTxes.Perm (p :: mp.verifiedTxes) := by
  rw [insert_verifiedTxes h hlt.le, List.take_of_length_le (by simp [List.orderedInsert_length]; omega)]
  exact List.perm_orderedInsert _ _ _

theorem insert_verifiedTxes_perm_of_full (h : Fits mp.verifiedTxes p)
    (hfull : mp.verifiedTxes.length = mp.capacity)
    (hidx : insertIndex mp.verifiedTxes p ≠ mp.verifiedTxes.length) :
    (mp.insert p).1.verifiedTxes.Perm (p :: mp.verifiedTxes.dropLast) := by
  set L := mp.verifiedTxes
  set n := insertIndex L p
  have hn : n < L.length := Nat.lt_of_le_of_ne (search_le _ _) hidx
  have htake : (L.take n ++ p :: L.drop n).take L.length = L.take n ++ p :: (L.drop n).dropLast := by
    rw [take_append_cons_drop_dropLast _ _ _ hn, List.dropLast_eq_take]
    simp; omega
  rw [insert_verifiedTxes h hfull.le, orderedInsert_eq h, ← hfull, htake]
  refine List.perm_middle.trans (List.Perm.cons _ ?_)
  conv_rhs => rw [← List.take_append_drop n L]
  rw [List.dropLast_append_of_ne_nil _ (List.ne_nil_of_length_pos (by simp; omega))]

end Insert

@[simp] theorem add_capacity (mp : Pool H S I) (t : Transaction H S I) (fee : Feer S) :
    (mp.add t fee).1.capacity = mp.capacity := by
  rw [add_eq]
  split
  · exact checkTxConflicts_capacity mp t fee
  · split
    · exact checkTxConflicts_capacity mp t fee
    · rw [insert_capacity, checkTxConflicts_capacity]

/-! ## `Remove` -/

theorem remove_slice_eq {α : Type} (v : List α) (num : Nat) :
    (if (num : Int) < v.length - 1 then v.take num ++ v.drop (num + 1)
      else if (num : Int) = v.length - 1 then v.take num else v) = v.eraseIdx num := by
  rw [List.eraseIdx_eq_take_drop_succ]
  split
  · rfl
  · split
    · rw [List.drop_eq_nil_of_le (by omega), List.append_nil]
    · rw [List.take_of_length_le (by omega), List.drop_eq_nil_of_le (by omega), List.append_nil]

theorem remove_of_none {mp : Pool H S I} {hash : H} (h : mp.verifiedMap hash = none) :
    mp.remove hash = mp := by
  simp [remove, h]

theorem remove_of_some {mp : Pool H S I} {hash : H} {it : Item H S I}
    (h : mp.verifiedMap hash = some it) :
    mp.remove hash =
      { mp with
        verifiedMap := Function.update mp.verifiedMap hash none
        verifiedTxes := mp.verifiedTxes.eraseIdx (rangeIndex mp.verifiedTxes hash)
        fees := Function.update mp.fees it.txn.sender (some { (mp.fees it.txn.sender).getD {} with
          feeSum := ((mp.fees it.txn.sender).getD {}).feeSum - (it.txn.systemFee + it.txn.networkFee) })
        inputs := it.txn.inputs.foldl dropInputFromSortedSlice mp.inputs } := by
  simp only [remove, h, remove_slice_eq]

@[simp] theorem remove_capacity (mp : Pool H S I) (hash : H) : (mp.remove hash).capacity = mp.capacity := by
  cases h : mp.verifiedMap hash <;> simp [remove, h]

omit [DecidableEq S] [LinearOrder I] in
theorem rangeIndex_spec (v : List (Item H S I)) (hash : H) :
    (∃ h : rangeIndex v hash < v.length, v[rangeIndex v hash].txn.hash = hash) ∨
      ∀ x ∈ v, x.txn.hash ≠ hash := by
  cases hf : v.findIdx? (fun x => x.txn.hash == hash) with
  | none =>
    refine .inr fun x hx he => ?_
    have := List.findIdx?_eq_none_iff.mp hf x hx
    simp [he] at this
  | some i =>
    obtain ⟨hi, hp, -⟩ := List.findIdx?_eq_some_iff_getElem.mp hf
    refine .inl ⟨by simpa [rangeIndex, hf] using hi, ?_⟩
    simpa [rangeIndex, hf] using hp

omit [DecidableEq S] [LinearOrder I] in
/-- An item inserted where no other item has its hash is found where it was inserted. -/
theorem rangeIndex_insert {L : List (Item H S I)} {p : Item H S I} {i : Nat} (hi : i ≤ L.length)
    (hfresh : ∀ x ∈ L, x.txn.hash ≠ p.txn.hash) :
    rangeIndex (L.take i ++ p :: L.drop i) p.txn.hash = i := by
  suffices h : (L.take i ++ p :: L.drop i).findIdx? (fun x => x.txn.hash == p.txn.hash) = some i by
    simp [rangeIndex, h]
  induction L generalizing i with
  | nil => simp [Nat.le_zero.mp hi]
  | cons x L ih =>
    cases i with
    | zero => simp
    | succ i =>
      have hx := hfresh x (List.mem_cons_self _ _)
      simp [hx, ih (Nat.le_of_succ_le_succ hi) fun y hy => hfresh y (List.mem_cons_of_mem _ hy)]

omit [LinearOrder H] [DecidableEq S] [LinearOrder I] in
theorem hash_ne_of_mem_eraseIdx {v : List (Item H S I)} (hnd : (v.map (·.txn.hash)).Nodup)
    {i : Nat} (hi : i < v.length) {x : Item H S I} (hx : x ∈ v.eraseIdx i) :
    x.txn.hash ≠ v[i].txn.hash := by
  have hsplit : v = v.take i ++ v[i] :: v.drop (i + 1) := by
    conv_lhs => rw [← List.take_append_drop i v, List.drop_eq_getElem_cons hi]
  rw [List.eraseIdx_eq_take_drop_succ] at hx
  rw [hsplit, List.map_append, List.map_cons, List.nodup_middle, List.nodup_cons,
    ← List.map_append] at hnd
  exact fun he => hnd.1 (List.mem_map.mpr ⟨x, hx, he⟩)

theorem hash_ne_of_mem_remove {mp : Pool H S I} {hash : H} {it : Item H S I}
    (hnd : (mp.verifiedTxes.map (·.txn.hash)).Nodup) (h : mp.verifiedMap hash = some it)
    {x : Item H S I} (hx : x ∈ (mp.remove hash).verifiedTxes) : x.txn.hash ≠ hash := by
  rw [remove_of_some h] at hx
  rcases rangeIndex_spec mp.verifiedTxes hash with ⟨hi, he⟩ | hnone
  · exact he ▸ hash_ne_of_mem_eraseIdx hnd hi hx
  · exact hnone x (List.mem_of_mem_eraseIdx hx)

/-! ## `RemoveStale` -/

section

omit [LinearOrder H] [LinearOrder I]

@[simp] theorem checkBalanceAndUpdate_snd_verifiedMap (mp : Pool H S I) (tx : Transaction H S I)
    (feer : Feer S) : (mp.checkBalanceAndUpdate tx feer).2.verifiedMap = mp.verifiedMap := by
  rw [checkBalanceAndUpdate_eq]; rfl
@[simp] theorem checkBalanceAndUpdate_snd_verifiedTxes (mp : Pool H S I) (tx : Transaction H S I)
    (feer : Feer S) : (mp.checkBalanceAndUpdate tx feer).2.verifiedTxes = mp.verifiedTxes := by
  rw [checkBalanceAndUpdate_eq]; rfl
@[simp] theorem checkBalanceAndUpdate_snd_inputs (mp : Pool H S I) (tx : Transaction H S I)
    (feer : Feer S) : (mp.checkBalanceAndUpdate tx feer).2.inputs = mp.inputs := by
  rw [checkBalanceAndUpdate_eq]; rfl
@[simp] theorem checkBalanceAndUpdate_snd_capacity (mp : Pool H S I) (tx : Transaction H S I)
    (feer : Feer S) : (mp.checkBalanceAndUpdate tx feer).2.capacity = mp.capacity := by
  rw [checkBalanceAndUpdate_eq]; rfl

theorem tryAddSendersFee_snd (mp : Pool H S I) (tx : Transaction H S I) (feer : Feer S) :
    (mp.tryAddSendersFee tx feer).2 = { mp with fees := (mp.tryAddSendersFee tx feer).2.fees } := by
  simp only [tryAddSendersFee, checkBalanceAndUpdate_eq]
  split <;> rfl

end

omit [LinearOrder I] in
theorem staleStep_eq (isOK : Transaction H S I → Bool) (feer : Feer S) (mp : Pool H S I)
    (kept : List (Item H S I)) (ins : List I) (itm : Item H S I) :
    ∃ (passed : Bool) (fees : S → Option UtilityBalanceAndFees), staleStep isOK feer (mp, kept, ins) itm =
      if passed then ({ mp with fees := fees }, kept ++ [itm], ins ++ itm.txn.inputs)
      else ({ mp with fees := fees, verifiedMap := Function.update mp.verifiedMap itm.txn.hash none },
        kept, ins) := by
  by_cases hok : isOK itm.txn
  · refine ⟨(mp.tryAddSendersFee itm.txn feer).1, (mp.tryAddSendersFee itm.txn feer).2.fees, ?_⟩
    simp only [staleStep, hok, if_true]
    rw [tryAddSendersFee_snd]
  · exact ⟨false, mp.fees, by simp [staleStep, hok]⟩

omit [LinearOrder I] in
/-- **The loop of `RemoveStale`.** It keeps a sublist, collects exactly the kept items'
inputs, touches only the map and `fees`, and deletes from the map only hashes of items it
did not keep. -/
theorem foldl_staleStep (isOK : Transaction H S I → Bool) (feer : Feer S) :
    ∀ (l : List (Item H S I)) (mp : Pool H S I) (kept : List (Item H S I)) (ins : List I),
      (l.map (·.txn.hash)).Nodup →
      ∃ sel, sel.Sublist l ∧
        (l.foldl (staleStep isOK feer) (mp, kept, ins)).2.1 = kept ++ sel ∧
        (l.foldl (staleStep isOK feer) (mp, kept, ins)).2.2 = ins ++ sel.flatMap (·.txn.inputs) ∧
        (l.foldl (staleStep isOK feer) (mp, kept, ins)).1.verifiedTxes = mp.verifiedTxes ∧
        (l.foldl (staleStep isOK feer) (mp, kept, ins)).1.inputs = mp.inputs ∧
        (l.foldl (staleStep isOK feer) (mp, kept, ins)).1.capacity = mp.capacity ∧
        ∀ k, (l.foldl (staleStep isOK feer) (mp, kept, ins)).1.verifiedMap k = mp.verifiedMap k ∨
          ((l.foldl (staleStep isOK feer) (mp, kept, ins)).1.verifiedMap k = none ∧
            ∃ x ∈ l, x.txn.hash = k ∧ ∀ z ∈ sel, z.txn.hash ≠ k)
  | [], mp, kept, ins, _ => ⟨[], List.Sublist.slnil, by simp⟩
  | itm :: l, mp, kept, ins, hnd => by
    rw [List.map_cons, List.nodup_cons] at hnd
    have hfresh : ∀ z ∈ l, z.txn.hash ≠ itm.txn.hash :=
      fun z hz he => hnd.1 (List.mem_map.mpr ⟨z, hz, he⟩)
    obtain ⟨passed, fees, hstep⟩ := staleStep_eq isOK feer mp kept ins itm
    rw [List.foldl_cons, hstep]
    cases passed
    · rw [if_neg Bool.false_ne_true]
      obtain ⟨sel, hsub, h1, h2, h3, h4, h5, h6⟩ := foldl_staleStep isOK feer l _ kept ins hnd.2
      refine ⟨sel, hsub.cons _, h1, h2, h3, h4, h5, fun k => ?_⟩
      by_cases hk : k = itm.txn.hash
      · subst hk
        refine .inr ⟨?_, itm, List.mem_cons_self _ _, rfl, fun z hz => hfresh z (hsub.subset hz)⟩
        rcases h6 itm.txn.hash with h | ⟨h, -⟩ <;> simp [h]
      · rcases h6 k with h | ⟨h, x, hx, hxk, hz⟩
        · exact .inl (by simp [h, Function.update_noteq hk])
        · exact .inr ⟨h, x, List.mem_cons_of_mem _ hx, hxk, hz⟩
    · rw [if_pos rfl]
      obtain ⟨sel, hsub, h1, h2, h3, h4, h5, h6⟩ :=
        foldl_staleStep isOK feer l _ (kept ++ [itm]) (ins ++ itm.txn.inputs) hnd.2
      refine ⟨itm :: sel, hsub.cons₂ _, by simp [h1], by simp [h2], h3, h4, h5, fun k => ?_⟩
      rcases h6 k with h | ⟨h, x, hx, hxk, hz⟩
      · exact .inl h
      · have hk : itm.txn.hash ≠ k := fun he => hfresh x hx (hxk.trans he.symm)
        exact .inr ⟨h, x, List.mem_cons_of_mem _ hx, hxk, List.forall_mem_cons.mpr ⟨hk, hz⟩⟩

end Pool

end NeoGo.Mempool
