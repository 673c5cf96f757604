import NeoGo.Mempool.Commute

/-! # The pool's operations against their specifications

What `Add`, `Remove`, `RemoveStale` and `Verify` return and leave, for every pool and input
the specification speaks of. `Add` is stated over reachable pools, where the ordering
invariant holds; its result is read off the equations of `NeoGo.Mempool.Step`, with the
binary search and the slice shuffling already gone.
-/

namespace NeoGo.Mempool

open NeoGo.Sort Pool

variable {H S I : Type} [LinearOrder H] [DecidableEq S] [LinearOrder I]

/-! ## `Add` -/

section Add

variable {c : Nat} {mp : Pool H S I} {t : Transaction H S I} {fee : Feer S}

theorem add_of_checks (hin : areInputsInPool t.inputs mp.inputs = false)
    (hfee : (mp.checkBalanceAndUpdate t fee).1 = true) (hdup : mp.containsKey t.hash = false) :
    mp.add t fee = (mp.snapshot t.sender fee).insert (addItem t fee) := by
  have hcov : (senderEntry mp.fees fee t.sender).covers t = true := by
    rwa [checkBalanceAndUpdate_eq] at hfee
  have hc : mp.checkTxConflicts t fee = (true, mp.snapshot t.sender fee) := by
    rw [checkTxConflicts_eq, if_neg (by simp [hin]), hcov]
  simp only [containsKey] at hdup
  simp [add_eq, hc, containsKey, hdup]

/-- **`Add`'s result once the checks pass.** On a full pool none of whose items the new
item `p` outranks, `Add` returns `ErrOOM` and leaves the list; otherwise it returns nil, and
the list is the old one with `p` at the one place that keeps it strictly descending, without
the old last item when the pool was full, whose hash also leaves the map. -/
theorem add_of_passing_checks (hr : Reachable c mp)
    (hin : areInputsInPool t.inputs mp.inputs = false)
    (hfee : (mp.checkBalanceAndUpdate t fee).1 = true) (hdup : mp.containsKey t.hash = false) :
    let p := addItem t fee
    let L := mp.verifiedTxes
    ((L.length = mp.capacity ∧ ∀ x ∈ L, p.compareTo x ≤ 0) →
      (mp.add t fee).2 = some .errOOM ∧ (mp.add t fee).1.verifiedTxes = L) ∧
    (¬ (L.length = mp.capacity ∧ ∀ x ∈ L, p.compareTo x ≤ 0) →
      (mp.add t fee).2 = none ∧ ∃ i ≤ L.length,
        (L.take i ++ p :: L.drop i).Chain' (fun a b => a.compareTo b > 0) ∧
        (∀ j ≤ L.length,
          (L.take j ++ p :: L.drop j).Chain' (fun a b => a.compareTo b > 0) → j = i) ∧
        (L.length < mp.capacity → (mp.add t fee).1.verifiedTxes = L.take i ++ p :: L.drop i) ∧
        (L.length = mp.capacity → i < L.length ∧
          (mp.add t fee).1.verifiedTxes = (L.take i ++ p :: L.drop i).dropLast ∧
          ∃ u, L.getLast? = some u ∧ (mp.add t fee).1.verifiedMap u.txn.hash = none)) := by
  intro p L
  have h := hr.inv
  have hfits : Fits L p := h.fits hdup
  -- the insertion happens on the pool with the snapshot, whose list and capacity are `mp`'s
  have hfits' : Fits (mp.snapshot t.sender fee).verifiedTxes p := hfits
  have hsnd := insert_snd hfits'
  have hlist := insert_verifiedTxes hfits' h.bounded
  simp only [snapshot_verifiedTxes, snapshot_capacity] at hsnd hlist
  rw [orderedInsert_eq hfits] at hlist
  have hnone : (∀ x ∈ L, p.compareTo x ≤ 0) ↔ ∀ x ∈ L, ¬ p.Outranks x := by
    simp [Item.Outranks]
  rw [add_of_checks hin hfee hdup]
  refine ⟨fun ⟨hfull, hx⟩ => ?_, fun hc => ?_⟩
  · -- `ErrOOM`: the search ran off the end of a full list
    have hidx := (insertIndex_eq_length_iff hfits').mpr (hnone.mp hx)
    rw [insert_fst_of_errOOM (show (mp.snapshot t.sender fee).verifiedTxes.length = _ from hfull) hidx,
      hsnd, if_pos ⟨hfull, hnone.mp hx⟩]
    exact ⟨rfl, rfl⟩
  · have hi : insertIndex L p ≤ L.length := search_le _ _
    have hsorted := hfits.orderedInsert_sorted
    rw [orderedInsert_eq hfits] at hsorted
    refine ⟨by rw [hsnd, if_neg (by rwa [hnone] at hc)], insertIndex L p, hi, hsorted.chain',
      fun j hj hs => ?_, fun hlt => ?_, fun hfull => ?_⟩
    · rw [insertIndex_eq hfits]
      exact eq_findIdx_of_pairwise hj (List.chain'_iff_pairwise.mp hs)
    · rw [hlist]
      exact List.take_of_length_le (by simp; omega)
    · -- a full pool: the old last item `u` makes room
      have hidx : insertIndex L p ≠ L.length := fun he =>
        hc ⟨hfull, hnone.mpr ((insertIndex_eq_length_iff hfits).mp he)⟩
      have hlt := Nat.lt_of_le_of_ne hi hidx
      obtain ⟨u, hu, -⟩ := getLast?_of_lt hlt
      refine ⟨hlt, ?_, u, hu, ?_⟩
      · rw [hlist, List.dropLast_eq_take]
        simp; omega
      · rw [(insert_of_full (show (mp.snapshot t.sender fee).verifiedTxes.length = _ from hfull)
          hidx hu).2.1]
        simp

/-! ## `Add` then `Remove` -/

/-- **`Remove` undoes an `Add` that evicted nothing**, but for the balance snapshot `Add`
took: the pool after both is the pool with the sender's snapshot. -/
theorem remove_add_eq_snapshot (hm : mp.Inv) (h : (mp.add t fee).2 = none)
    (hlt : mp.verifiedTxes.length < mp.capacity) :
    (mp.add t fee).1.remove t.hash = mp.snapshot t.sender fee := by
  obtain ⟨hfresh, hadd⟩ := add_of_ok h
  have hs := hm.snapshot t.sender fee
  have hfits := hs.fits (p := addItem t fee) hfresh
  obtain ⟨-, hmap, hin, hfee⟩ := insert_of_lt (p := addItem t fee)
    (show (mp.snapshot t.sender fee).verifiedTxes.length < _ from hlt)
  have hlist := insert_verifiedTxes hfits hs.bounded
  rw [orderedInsert_eq hfits, List.take_of_length_le (by simp; omega)] at hlist
  simp only [snapshot_verifiedTxes, snapshot_verifiedMap, snapshot_inputs, addItem_txn]
    at hlist hfits hmap hin
  have hi : insertIndex mp.verifiedTxes (addItem t fee) ≤ mp.verifiedTxes.length := search_le _ _
  have hnone : mp.verifiedMap t.hash = none := by simpa [containsKey] using hfresh
  rw [hadd, remove_of_some (show _ = some (addItem t fee) by simp [hmap])]
  refine Pool.ext ?_ ?_ ?_ ?_ (by simp)
  · show Function.update _ t.hash none = mp.verifiedMap
    rw [hmap, Function.update_idem, ← hnone, Function.update_eq_self]
  · show _ = mp.verifiedTxes
    have hidx := rangeIndex_insert hi hfits.fresh
    rw [addItem_txn] at hidx
    rw [hlist, hidx, List.eraseIdx_append_of_length_le (by simp [Nat.min_eq_left hi])]
    simp [Nat.min_eq_left hi]
  · show _ = mp.inputs
    rw [hin]
    exact foldl_drop_foldl_push hm.inputsSorted _
  · show _ = Function.update mp.fees t.sender (some (senderEntry mp.fees fee t.sender))
    rw [hfee, addItem_txn, addSendersFee_snapshot_fees]
    simp [chargeSender, BitVec.add_sub_cancel]

/-- **`Add` then `Remove` of the same hash, with room in the pool, gives the pool back**:
the same map, list and inputs and the same fee sum for every sender. The one possible
residue is an entry for the sender with fee sum 0, holding the balance snapshot `Add`
took. -/
theorem remove_undoes_add (hr : Reachable c mp) (h : (mp.add t fee).2 = none)
    (hlt : mp.verifiedTxes.length < mp.capacity) :
    let mp' := (mp.add t fee).1.remove t.hash
    mp'.verifiedMap = mp.verifiedMap ∧ mp'.verifiedTxes = mp.verifiedTxes ∧
      mp'.inputs = mp.inputs ∧
      (∀ s, ((mp'.fees s).getD {}).feeSum = ((mp.fees s).getD {}).feeSum) ∧
      ∀ s, mp'.fees s = mp.fees s ∨ (s = t.sender ∧ mp.fees s = none ∧
        mp'.fees s = some { balance := fee.getUtilityTokenBalance t.sender }) := by
  intro mp'
  have he : mp' = mp.snapshot t.sender fee := remove_add_eq_snapshot hr.inv h hlt
  have hfees : ∀ s, mp'.fees s = mp.fees s ∨ (s = t.sender ∧ mp.fees s = none ∧
      mp'.fees s = some { balance := fee.getUtilityTokenBalance t.sender }) := by
    intro s
    rw [he]
    by_cases hs : s = t.sender
    · subst hs
      cases hf : mp.fees t.sender <;> simp [snapshot, senderEntry, hf]
    · simp [snapshot, Function.update_noteq hs]
  refine ⟨by rw [he]; rfl, by rw [he]; rfl, by rw [he]; rfl, fun s => ?_, hfees⟩
  rcases hfees s with hs | ⟨-, hnone, hs⟩
  · rw [hs]
  · rw [hs, hnone]; rfl

end Add

/-- `Add` of the transaction of hash 3 to the full `twoPool`, whose items it outranks: the
checks pass and `Add` returns nil. -/
theorem add_of_passing_checks_on_full_pool :
    areInputsInPool [3] twoPool.inputs = false ∧
      (twoPool.checkBalanceAndUpdate (sampleTx 3 30 [3]) (sampleFeer 1000)).1 = true ∧
      twoPool.containsKey 3 = false ∧
      (twoPool.add (sampleTx 3 30 [3]) (sampleFeer 1000)).2 = none :=
  ⟨by decide, by decide, by decide,
    ((add_of_passing_checks (.add _ _ (.add _ _ .init)) (by decide) (by decide) (by decide)).2
      (by decide)).1⟩

/-- `NewMemPool(3)` after `Add`s of network fees 10 and 30. -/
def betweenPool : Pool Nat Nat Nat :=
  (((newMemPool 3).add (sampleTx 1 10 [1]) (sampleFeer 1000)).1.add (sampleTx 3 30 [3])
    (sampleFeer 1000)).1

/-- `Add` of a transaction of fee 20, which lands between the two items, then `Remove` of it:
the pool is back, with the snapshot of the new sender left. -/
theorem remove_undoes_add_between :
    (Reachable 3 betweenPool ∧ (betweenPool.add (sampleTx 2 20 [2]) (sampleFeer 1000)).2 = none ∧
      betweenPool.verifiedTxes.length < betweenPool.capacity) ∧
    (betweenPool.add (sampleTx 2 20 [2]) (sampleFeer 1000)).1.verifiedTxes.map (·.txn.hash) =
      [3, 2, 1] ∧
    let mp' := (betweenPool.add (sampleTx 2 20 [2]) (sampleFeer 1000)).1.remove 2
    mp'.verifiedMap = betweenPool.verifiedMap ∧ mp'.verifiedTxes = betweenPool.verifiedTxes ∧
      mp'.inputs = betweenPool.inputs ∧
      (∀ s, ((mp'.fees s).getD {}).feeSum = ((betweenPool.fees s).getD {}).feeSum) ∧
      ∀ s, mp'.fees s = betweenPool.fees s ∨ (s = 2 ∧ betweenPool.fees s = none ∧
        mp'.fees s = some { balance := (sampleFeer 1000).getUtilityTokenBalance 2 }) :=
  ⟨⟨.add _ _ (.add _ _ .init), by decide, by decide⟩, by decide,
    remove_undoes_add (.add _ _ (.add _ _ .init)) (by decide) (by decide)⟩

/-! ## `RemoveStale`

The specification's `RemoveStale` is a greedy filter: in list order an item stays when
`isOK` holds of it and its sender's balance covers, in `Fixed8`, the fees of that sender's
items already kept plus its own. `staleSplit` is that rule, `staleFees` the fees map it
describes, and `staleState` the loop state it describes after a prefix of the list; one
round of the loop takes `staleState` of a prefix to that of the prefix one longer.
-/

section RemoveStale

variable (isOK : Transaction H S I → Bool) (feer : Feer S)

/-- The fees of the items of `s` in `l`, summed in `Fixed8` in list order. -/
def senderFeeSum (l : List (Item H S I)) (s : S) : Fixed8 :=
  (l.filter fun x => x.txn.sender = s).foldl
    (fun acc x => acc + (x.txn.systemFee + x.txn.networkFee)) 0

/-- The specification's split of a list into the items `RemoveStale` keeps and those it
drops. -/
def staleSplit (l : List (Item H S I)) : List (Item H S I) × List (Item H S I) :=
  l.foldl (fun kd x =>
    if isOK x.txn && (senderFeeSum kd.1 x.txn.sender + x.txn.systemFee + x.txn.networkFee).sle
        (feer.getUtilityTokenBalance x.txn.sender)
    then (kd.1 ++ [x], kd.2) else (kd.1, kd.2 ++ [x])) ([], [])

/-- The fees map after the items `seen`, of which `kept` were kept: an entry for every sender
of an item passing `isOK`, with the balance `feer` reports and the fees of its kept items. -/
def staleFees (seen kept : List (Item H S I)) (s : S) : Option UtilityBalanceAndFees :=
  if seen.any fun x => isOK x.txn && x.txn.sender = s then
    some { balance := feer.getUtilityTokenBalance s, feeSum := senderFeeSum kept s }
  else none

/-- The state of `RemoveStale`'s loop the specification describes after the items `l`: the
fees map, the map without the dropped hashes, the kept items and their inputs. -/
def staleState (mp : Pool H S I) (l : List (Item H S I)) :
    Pool H S I × List (Item H S I) × List I :=
  ({ mp with
      fees := staleFees isOK feer l (staleSplit isOK feer l).1
      verifiedMap := fun k =>
        if k ∈ (staleSplit isOK feer l).2.map (·.txn.hash) then none else mp.verifiedMap k },
    (staleSplit isOK feer l).1, (staleSplit isOK feer l).1.flatMap (·.txn.inputs))

omit [LinearOrder H] [LinearOrder I] in
theorem senderFeeSum_append_of_ne (l : List (Item H S I)) {x : Item H S I} {s : S}
    (hs : x.txn.sender ≠ s) : senderFeeSum (l ++ [x]) s = senderFeeSum l s := by
  simp [senderFeeSum, List.filter_append, hs]

omit [LinearOrder H] [LinearOrder I] in
theorem senderFeeSum_append_self (l : List (Item H S I)) (x : Item H S I) :
    senderFeeSum (l ++ [x]) x.txn.sender =
      senderFeeSum l x.txn.sender + (x.txn.systemFee + x.txn.networkFee) := by
  simp [senderFeeSum, List.filter_append]

omit [LinearOrder H] [LinearOrder I] in
theorem staleSplit_append (l : List (Item H S I)) (x : Item H S I) :
    staleSplit isOK feer (l ++ [x]) =
      if isOK x.txn && (senderFeeSum (staleSplit isOK feer l).1 x.txn.sender + x.txn.systemFee +
          x.txn.networkFee).sle (feer.getUtilityTokenBalance x.txn.sender)
      then ((staleSplit isOK feer l).1 ++ [x], (staleSplit isOK feer l).2)
      else ((staleSplit isOK feer l).1, (staleSplit isOK feer l).2 ++ [x]) := by
  simp only [staleSplit, List.foldl_append, List.foldl_cons, List.foldl_nil]

omit [LinearOrder H] [LinearOrder I] in
/-- Every kept item passes `isOK` and is one of the items. -/
theorem staleSplit_kept (l : List (Item H S I)) :
    ∀ y ∈ (staleSplit isOK feer l).1, isOK y.txn = true ∧ y ∈ l := by
  induction l using List.reverseRecOn with
  | nil => simp [staleSplit]
  | append_singleton l x ih =>
    rw [staleSplit_append]
    split
    · rename_i hc
      intro y hy
      rcases List.mem_append.mp hy with hy | hy
      · exact ⟨(ih y hy).1, List.mem_append_left _ (ih y hy).2⟩
      · rw [List.mem_singleton.mp hy]
        exact ⟨(Bool.and_eq_true _ _ ▸ hc).1, by simp⟩
    · exact fun y hy => ⟨(ih y hy).1, List.mem_append_left _ (ih y hy).2⟩

omit [LinearOrder H] [LinearOrder I] in
/-- The entry `checkBalanceAndUpdate` works with: the stored one, or, for a sender with no
item passing `isOK` yet (and so none kept), the fresh one with fee sum 0. -/
theorem senderEntry_staleFees (l : List (Item H S I)) (s : S) :
    senderEntry (staleFees isOK feer l (staleSplit isOK feer l).1) feer s =
      { balance := feer.getUtilityTokenBalance s,
        feeSum := senderFeeSum (staleSplit isOK feer l).1 s } := by
  unfold senderEntry staleFees
  split
  · rfl
  · rename_i hnone
    have hfilter : ((staleSplit isOK feer l).1.filter fun x => x.txn.sender = s) = [] := by
      refine List.filter_eq_nil_iff.mpr fun y hy hys => hnone ?_
      obtain ⟨hok, hyl⟩ := staleSplit_kept isOK feer l y hy
      exact List.any_eq_true.mpr ⟨y, hyl, by simpa [hok] using hys⟩
    simp [senderFeeSum, hfilter]

omit [LinearOrder H] [LinearOrder I] in
theorem staleFees_append (l kept : List (Item H S I)) (x : Item H S I) (s : S) :
    staleFees isOK feer (l ++ [x]) kept s =
      if (isOK x.txn && x.txn.sender = s) = true then
        some { balance := feer.getUtilityTokenBalance s, feeSum := senderFeeSum kept s }
      else staleFees isOK feer l kept s := by
  by_cases hx : (isOK x.txn && x.txn.sender = s) = true <;> simp [staleFees, hx]

omit [DecidableEq S] [LinearOrder I] in
theorem update_dropped (m : H → Option (Item H S I)) (D : List (Item H S I)) (x : Item H S I) :
    Function.update (fun k => if k ∈ D.map (·.txn.hash) then none else m k) x.txn.hash none =
      fun k => if k ∈ (D ++ [x]).map (·.txn.hash) then none else m k := by
  funext k
  by_cases hk : k = x.txn.hash
  · subst hk; simp
  · simp [Function.update_noteq hk, hk]

omit [LinearOrder I] in
/-- **One round of `RemoveStale`'s loop** takes the state the specification describes after
`l` to the one it describes after `l ++ [x]`. -/
theorem staleStep_staleState (mp : Pool H S I) (l : List (Item H S I)) (x : Item H S I) :
    staleStep isOK feer (staleState isOK feer mp l) x = staleState isOK feer mp (l ++ [x]) := by
  have hentry := senderEntry_staleFees isOK feer l x.txn.sender
  have hcov : (senderEntry (staleFees isOK feer l (staleSplit isOK feer l).1) feer x.txn.sender).covers
      x.txn = (senderFeeSum (staleSplit isOK feer l).1 x.txn.sender + x.txn.systemFee +
        x.txn.networkFee).sle (feer.getUtilityTokenBalance x.txn.sender) := by
    rw [hentry]
    simp only [UtilityBalanceAndFees.covers, BitVec.slt, BitVec.sle, ← not_lt, decide_not]
  simp only [staleState, staleStep, staleSplit_append]
  by_cases hok : isOK x.txn = true
  · simp only [hok, if_true, tryAddSendersFee, checkBalanceAndUpdate_eq, hcov, Bool.true_and]
    by_cases hc : (senderFeeSum (staleSplit isOK feer l).1 x.txn.sender + x.txn.systemFee +
        x.txn.networkFee).sle (feer.getUtilityTokenBalance x.txn.sender) = true
    · -- kept: the sender is charged
      simp only [hc, Bool.not_true, Bool.false_eq_true, if_false, if_true, Prod.mk.injEq,
        List.flatMap_append, List.flatMap_cons, List.flatMap_nil, List.append_nil, and_true]
      refine Pool.ext rfl rfl rfl (funext fun s => ?_) rfl
      by_cases hs : x.txn.sender = s
      · subst hs
        simp [addSendersFee, snapshot, hentry, staleFees_append, hok, senderFeeSum_append_self,
          BitVec.add_assoc]
      · simp [addSendersFee, snapshot, Function.update_noteq (Ne.symm hs), staleFees_append, hs,
          staleFees, senderFeeSum_append_of_ne _ hs]
    · -- dropped by the balance check: only the snapshot is stored
      simp only [hc, Bool.not_false, Bool.false_eq_true, if_false, if_true, Prod.mk.injEq,
        and_true]
      refine Pool.ext (update_dropped _ _ _) rfl rfl (funext fun s => ?_) rfl
      by_cases hs : x.txn.sender = s
      · subst hs
        simp [snapshot, hentry, staleFees_append, hok]
      · simp [snapshot, Function.update_noteq (Ne.symm hs), staleFees_append, hs]
  · -- dropped by `isOK`: nothing is charged
    simp only [hok, Bool.false_eq_true, if_false, Bool.false_and, Prod.mk.injEq, and_true]
    refine Pool.ext (update_dropped _ _ _) rfl rfl (funext fun s => ?_) rfl
    simp [staleFees_append, hok]

omit [LinearOrder I] in
theorem foldl_staleStep_eq (mp : Pool H S I) (l : List (Item H S I)) :
    l.foldl (staleStep isOK feer) ({ mp with fees := fun _ => none }, [], []) =
      staleState isOK feer mp l := by
  induction l using List.reverseRecOn with
  | nil => simp [staleState, staleSplit, staleFees]; rfl
  | append_singleton l x ih =>
    rw [List.foldl_append, ih, List.foldl_cons, List.foldl_nil, staleStep_staleState]

/-- **`RemoveStale` against its specification**, for every pool, predicate and fee policy:
it keeps, in order, the items the greedy rule of `staleSplit` keeps; `fees` holds one entry
per sender of an item passing `isOK`, with the balance `feer` reports and the fees of that
sender's kept items; `inputs` is the kept items' inputs, sorted; and the map loses exactly
the hashes of the dropped items. -/
theorem removeStale_spec (mp : Pool H S I) :
    let kd := staleSplit isOK feer mp.verifiedTxes
    let r := mp.removeStale isOK feer
    r.verifiedTxes = kd.1 ∧
      (∀ s, r.fees s = if ∃ x ∈ mp.verifiedTxes, isOK x.txn = true ∧ x.txn.sender = s then
        some { balance := feer.getUtilityTokenBalance s, feeSum := senderFeeSum kd.1 s } else none) ∧
      r.inputs.Sorted (· ≤ ·) ∧ r.inputs.Perm (kd.1.flatMap (·.txn.inputs)) ∧
      ∀ k, r.verifiedMap k = if k ∈ kd.2.map (·.txn.hash) then none else mp.verifiedMap k := by
  intro kd r
  have hr : r = { (staleState isOK feer mp mp.verifiedTxes).1 with
      verifiedTxes := kd.1, inputs := (kd.1.flatMap (·.txn.inputs)).insertionSort (· ≤ ·) } := by
    simp only [r, removeStale_eq, foldl_staleStep_eq]; rfl
  refine ⟨by rw [hr], fun s => ?_, by rw [hr]; exact List.sorted_insertionSort _ _,
    by rw [hr]; exact List.perm_insertionSort _ _, fun k => by rw [hr]; rfl⟩
  rw [hr]
  simp [staleState, staleFees, List.any_eq_true]

omit [LinearOrder H] [LinearOrder I] in
theorem staleSplit_kept_self (l : List (Item H S I)) :
    staleSplit isOK feer (staleSplit isOK feer l).1 = ((staleSplit isOK feer l).1, []) := by
  induction l using List.reverseRecOn with
  | nil => rfl
  | append_singleton l x ih =>
    rw [staleSplit_append isOK feer l]
    split
    · rename_i hc
      rw [staleSplit_append, ih, if_pos hc]
    · exact ih

theorem removeStale_eq_staleState (mp : Pool H S I) :
    mp.removeStale isOK feer =
      { (staleState isOK feer mp mp.verifiedTxes).1 with
        verifiedTxes := (staleSplit isOK feer mp.verifiedTxes).1,
        inputs := ((staleSplit isOK feer mp.verifiedTxes).1.flatMap (·.txn.inputs)).insertionSort
          (· ≤ ·) } := by
  simp only [removeStale_eq, foldl_staleStep_eq]
  rfl

/-- **A second `RemoveStale` drops nothing**: run again with the same predicate and fee policy,
it keeps every item, the map and the inputs, and only forgets the fee entries of the senders
with no item left, which the first run kept with a fee sum of zero. -/
theorem removeStale_removeStale (mp : Pool H S I) :
    (mp.removeStale isOK feer).removeStale isOK feer =
      { mp.removeStale isOK feer with
        fees := fun s => if (mp.removeStale isOK feer).verifiedTxes.any (·.txn.sender = s)
          then (mp.removeStale isOK feer).fees s else none } := by
  have hkept := staleSplit_kept isOK feer mp.verifiedTxes
  rw [removeStale_eq_staleState isOK feer (mp.removeStale isOK feer),
    removeStale_eq_staleState isOK feer mp]
  dsimp only
  rw [staleSplit_kept_self]
  refine Pool.ext ?_ rfl rfl ?_ rfl
  · funext k
    simp only [staleState, staleSplit_kept_self, List.map_nil, List.not_mem_nil, if_false]
  · funext s
    simp only [staleState, staleSplit_kept_self, staleFees]
    by_cases hs : ∃ y ∈ (staleSplit isOK feer mp.verifiedTxes).1, y.txn.sender = s
    · obtain ⟨y, hy, rfl⟩ := hs
      have hok := hkept y hy
      have hany : ∀ l : List (Item H S I), y ∈ l →
          (l.any fun x => isOK x.txn && decide (x.txn.sender = y.txn.sender)) = true :=
        fun l hl => List.any_eq_true.mpr ⟨y, hl, by simp [hok.1]⟩
      have hsender : ((staleSplit isOK feer mp.verifiedTxes).1.any fun x =>
          decide (x.txn.sender = y.txn.sender)) = true :=
        List.any_eq_true.mpr ⟨y, hy, decide_eq_true rfl⟩
      simp only [hany _ hy, hany _ hok.2, hsender, if_true]
    · have hnone : ((staleSplit isOK feer mp.verifiedTxes).1.any fun x =>
          isOK x.txn && decide (x.txn.sender = s)) = false :=
        List.any_eq_false.mpr fun y hy h => hs ⟨y, hy, by
          simp only [Bool.and_eq_true, decide_eq_true_eq] at h; exact h.2⟩
      simp only [hnone, Bool.false_eq_true, if_false]
      rw [if_neg fun h => hs (by
        obtain ⟨y, hy, he⟩ := List.any_eq_true.mp h
        exact ⟨y, hy, of_decide_eq_true he⟩)]

end RemoveStale

/-! ## `Verify` -/

omit [LinearOrder H] in
theorem verify_eq (mp : Pool H S I) (tx : Transaction H S I) (feer : Feer S) :
    mp.verify tx feer = ((mp.checkTxConflicts tx feer).1,
      if areInputsInPool tx.inputs mp.inputs then mp else mp.snapshot tx.sender feer) := by
  rw [verify, checkTxConflicts_eq]; split <;> rfl

omit [LinearOrder H] [LinearOrder I] in
theorem snapshot_eq_self_iff (mp : Pool H S I) (s : S) (feer : Feer S) :
    mp.snapshot s feer = mp ↔ (mp.fees s).isSome := by
  constructor
  · intro h
    have := congrFun (congrArg Pool.fees h) s
    simp only [snapshot, Function.update_same] at this
    rw [← this]; rfl
  · intro h
    obtain ⟨e, he⟩ := Option.isSome_iff_exists.mp h
    have hfees : Function.update mp.fees s (some (senderEntry mp.fees feer s)) = mp.fees := by
      rw [senderEntry, he, Option.getD_some, ← he, Function.update_eq_self]
    exact Pool.ext rfl rfl rfl hfees rfl

omit [LinearOrder H] in
/-- **`Verify` writes the pool** exactly when the transaction's inputs are free and its
sender has no entry in `fees`: then it stores the sender's balance snapshot. -/
theorem verify_snd_eq_self_iff (mp : Pool H S I) (tx : Transaction H S I) (feer : Feer S) :
    (mp.verify tx feer).2 = mp ↔
      areInputsInPool tx.inputs mp.inputs = true ∨ (mp.fees tx.sender).isSome := by
  rw [verify_eq]
  by_cases hin : areInputsInPool tx.inputs mp.inputs <;> simp [hin, snapshot_eq_self_iff]

/-- `Verify` of a transaction on a new pool stores its sender's balance. -/
theorem verify_stores_snapshot :
    ((newMemPool 1 : Pool Nat Nat Nat).verify (sampleTx 1 20 [1]) (sampleFeer 1000)).1 = true ∧
      (newMemPool 1 : Pool Nat Nat Nat).fees 1 = none ∧
      ((newMemPool 1 : Pool Nat Nat Nat).verify (sampleTx 1 20 [1]) (sampleFeer 1000)).2.fees 1 =
        some { balance := 1000, feeSum := 0 } := by
  decide

end NeoGo.Mempool
