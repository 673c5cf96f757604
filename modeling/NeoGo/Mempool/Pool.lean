import NeoGo.Mempool.Inputs

/-! # The memory pool's state and operations

`Pool` with its two views of the pooled items (`verifiedMap` by hash, `verifiedTxes` in
descending priority), the sorted `inputs` slice and the per-sender `fees` map. The lock is
not modelled: every operation holds it from start to finish, so each is one step on the
state. Go maps are functions here (an absent key is `none`); Go's zero value of
`utilityBalanceAndFees` is the structure's default.

Every operation returns the whole state, also on its error paths: `Add` writes the sender's
balance snapshot before it can fail, and writes `verifiedMap` before its capacity check.
-/

namespace NeoGo.Mempool

open NeoGo.Sort

/-- `utilityBalanceAndFees`. -/
structure UtilityBalanceAndFees where
  balance : Fixed8 := 0
  feeSum : Fixed8 := 0
  deriving DecidableEq

/-- The sentinel errors of `Add`. -/
inductive PoolError where
  | errConflict
  | errDup
  | errOOM
  deriving DecidableEq

/-- The text each sentinel is created with. -/
def PoolError.message : PoolError → String
  | .errConflict => "conflicts with the memory pool"
  | .errDup => "already in the memory pool"
  | .errOOM => "out of memory"

/-- `TxWithFee`. -/
structure TxWithFee (H S I : Type) where
  tx : Transaction H S I
  fee : Fixed8

/-- `Pool`, without its lock. -/
@[ext]
structure Pool (H S I : Type) where
  verifiedMap : H → Option (Item H S I)
  verifiedTxes : List (Item H S I)
  inputs : List I
  fees : S → Option UtilityBalanceAndFees
  capacity : Nat

variable {H S I : Type} [LinearOrder H] [DecidableEq S] [LinearOrder I]

def newMemPool (capacity : Nat) : Pool H S I :=
  { verifiedMap := fun _ => none, verifiedTxes := [], inputs := [], fees := fun _ => none,
    capacity := capacity }

namespace Pool

def count (mp : Pool H S I) : Nat := mp.verifiedTxes.length

def containsKey (mp : Pool H S I) (hash : H) : Bool := (mp.verifiedMap hash).isSome

def tryGetValue (mp : Pool H S I) (hash : H) : Option (Transaction H S I × Fixed8) :=
  (mp.verifiedMap hash).map fun pItem => (pItem.txn, pItem.txn.networkFee)

def getVerifiedTransactions (mp : Pool H S I) : List (TxWithFee H S I) :=
  mp.verifiedTxes.map fun p => { tx := p.txn, fee := p.txn.networkFee }

/-! ## Sender fees -/

/-- `checkBalanceAndUpdate`: the check `balance >= feeSum + SystemFee + NetworkFee` in
`int64`, after storing the balance snapshot of a sender seen for the first time. -/
def checkBalanceAndUpdate (mp : Pool H S I) (tx : Transaction H S I) (feer : Feer S) :
    Bool × Pool H S I :=
  let (senderFee, mp) : UtilityBalanceAndFees × Pool H S I :=
    match mp.fees tx.sender with
    | some senderFee => (senderFee, mp)
    | none =>
      let senderFee : UtilityBalanceAndFees := { balance := feer.getUtilityTokenBalance tx.sender }
      (senderFee, { mp with fees := Function.update mp.fees tx.sender (some senderFee) })
  let needFee := senderFee.feeSum + tx.systemFee + tx.networkFee
  (!senderFee.balance.slt needFee, mp)

def addSendersFee (mp : Pool H S I) (tx : Transaction H S I) : Pool H S I :=
  let senderFee := (mp.fees tx.sender).getD {}
  let senderFee := { senderFee with feeSum := senderFee.feeSum + (tx.systemFee + tx.networkFee) }
  { mp with fees := Function.update mp.fees tx.sender (some senderFee) }

def tryAddSendersFee (mp : Pool H S I) (tx : Transaction H S I) (feer : Feer S) :
    Bool × Pool H S I :=
  let (ok, mp) := mp.checkBalanceAndUpdate tx feer
  if !ok then (false, mp) else (true, mp.addSendersFee tx)

def checkTxConflicts (mp : Pool H S I) (tx : Transaction H S I) (fee : Feer S) :
    Bool × Pool H S I :=
  if areInputsInPool tx.inputs mp.inputs then (false, mp) else mp.checkBalanceAndUpdate tx fee

/-- `Verify`: `checkTxConflicts` under the read lock, balance snapshot included. -/
def verify (mp : Pool H S I) (tx : Transaction H S I) (feer : Feer S) : Bool × Pool H S I :=
  mp.checkTxConflicts tx feer

/-! ## Add -/

/-- The `sort.Search` of `Add`: the first item the new one outranks. -/
def insertIndex (v : List (Item H S I)) (pItem : Item H S I) : Nat :=
  search v.length fun n => v[n]?.any fun x => decide (0 < pItem.compareTo x)

/-- `if n != len(v)-1 { copy(v[n+1:], v[n:]); v[n] = pItem }`. -/
def placeAt (v : List (Item H S I)) (n : Nat) (pItem : Item H S I) : List (Item H S I) :=
  if n ≠ v.length - 1 then (shiftRight v n).set n pItem else v

/-- Ditching the last item of a full pool: its hash leaves the map and `pItem` takes its slot. -/
def evictLast (mp : Pool H S I) (pItem : Item H S I) : Pool H S I :=
  match mp.verifiedTxes.getLast? with
  | none => mp
  | some unlucky =>
    { mp with verifiedMap := Function.update mp.verifiedMap unlucky.txn.hash none,
              verifiedTxes := mp.verifiedTxes.set (mp.verifiedTxes.length - 1) pItem }

/-- The end of `Add` once `pItem` holds a slot: move it to index `n`, account its fees and
push its inputs one by one. -/
def placeItem (mp : Pool H S I) (n : Nat) (pItem : Item H S I) : Pool H S I :=
  let mp := { mp with verifiedTxes := placeAt mp.verifiedTxes n pItem }
  let mp := mp.addSendersFee pItem.txn
  { mp with inputs := pItem.txn.inputs.foldl pushInputToSortedSlice mp.inputs }

/-- `Add` after its conflict and duplicate checks: the map write, the capacity check and the
insertion. -/
def insert (mp : Pool H S I) (pItem : Item H S I) : Pool H S I × Option PoolError :=
  let mp := { mp with verifiedMap := Function.update mp.verifiedMap pItem.txn.hash (some pItem) }
  let n := insertIndex mp.verifiedTxes pItem
  if mp.verifiedTxes.length = mp.capacity then
    if n = mp.verifiedTxes.length then (mp, some .errOOM)
    else ((mp.evictLast pItem).placeItem n pItem, none)
  else ({ mp with verifiedTxes := mp.verifiedTxes ++ [pItem] }.placeItem n pItem, none)

def add (mp : Pool H S I) (t : Transaction H S I) (fee : Feer S) : Pool H S I × Option PoolError :=
  let pItem : Item H S I := { txn := t, isLowPrio := fee.isLowPriority t.networkFee }
  let (ok, mp) := mp.checkTxConflicts t fee
  if !ok then (mp, some .errConflict)
  else if mp.containsKey t.hash then (mp, some .errDup)
  else mp.insert pItem

/-! ## Remove and RemoveStale -/

/-- Where `for num = range mp.verifiedTxes` stops in `Remove`: at the first item with the
hash, or, when no item has it, at the last index it visited (0 on an empty list). -/
def rangeIndex (v : List (Item H S I)) (hash : H) : Nat :=
  (v.findIdx? fun x => x.txn.hash == hash).getD (v.length - 1)

def remove (mp : Pool H S I) (hash : H) : Pool H S I :=
  match mp.verifiedMap hash with
  | none => mp
  | some it =>
    let v := mp.verifiedTxes
    let num := rangeIndex v hash
    let senderFee := (mp.fees it.txn.sender).getD {}
    let senderFee := { senderFee with feeSum := senderFee.feeSum - (it.txn.systemFee + it.txn.networkFee) }
    { mp with
      verifiedMap := Function.update mp.verifiedMap hash none
      verifiedTxes :=
        if (num : Int) < v.length - 1 then v.take num ++ v.drop (num + 1)
        else if (num : Int) = v.length - 1 then v.take num
        else v
      fees := Function.update mp.fees it.txn.sender (some senderFee)
      inputs := it.txn.inputs.foldl dropInputFromSortedSlice mp.inputs }

/-- One iteration of `RemoveStale`'s loop, with the list and inputs it is building:
`isOK(itm.txn) && mp.tryAddSendersFee(itm.txn, feer)` keeps the item, anything else deletes
its hash from the map. -/
def staleStep (isOK : Transaction H S I → Bool) (feer : Feer S)
    (acc : Pool H S I × List (Item H S I) × List I) (itm : Item H S I) :
    Pool H S I × List (Item H S I) × List I :=
  let (mp, newVerifiedTxes, newInputs) := acc
  let (passed, mp) := if isOK itm.txn then mp.tryAddSendersFee itm.txn feer else (false, mp)
  if passed then (mp, newVerifiedTxes ++ [itm], newInputs ++ itm.txn.inputs)
  else ({ mp with verifiedMap := Function.update mp.verifiedMap itm.txn.hash none },
    newVerifiedTxes, newInputs)

/-- `RemoveStale`. The kept inputs are sorted by `sort.Slice`; since `Input.Cmp` is a total
order that is zero only on equal inputs, every sorting algorithm gives the list
`insertionSort` gives. -/
def removeStale (mp : Pool H S I) (isOK : Transaction H S I → Bool) (feer : Feer S) :
    Pool H S I :=
  let mp := { mp with fees := fun _ => none }
  let (mp, newVerifiedTxes, newInputs) := mp.verifiedTxes.foldl (staleStep isOK feer) (mp, [], [])
  { mp with verifiedTxes := newVerifiedTxes, inputs := newInputs.insertionSort (· ≤ ·) }

end Pool

end NeoGo.Mempool
