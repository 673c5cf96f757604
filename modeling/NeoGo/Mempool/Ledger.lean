import NeoGo.Mempool.Spec

/-! # The pool's indexes on runs that never fill it

Beside its priority list `verifiedTxes`, a `Pool` keeps three indexes: the map by hash, the
sorted input slice and the per-sender fee sums. On every run along which each `Add` finds the
pool below its capacity they are the list's: the map holds each listed item under its hash and
nothing else, the input slice is the listed inputs sorted, and each sender's fee sum (zero when
it has no entry) is the sum of its listed items' fees. `Add` into a full pool breaks all three
(the rejected item's hash stays in the map, and an evicted item's inputs and fees stay).

Each operation keeps `Indexed` by its own lemma, and `Pool.Indexed.of_roomy` assembles them
over a run. On an indexed pool `Verify` and `Add` decide from the listed items alone. On a run
that never fills the pool no two listed transactions spend one input, and `Remove`s commute.
-/

namespace NeoGo.Mempool

open NeoGo.Sort Pool

variable {H S I : Type} [LinearOrder H] [DecidableEq S] [LinearOrder I]

/-- The pools reachable from `NewMemPool(c)` along runs on which every `Add` finds the pool
below its capacity; `Remove` and `RemoveStale` are called with any arguments. -/
inductive RoomyReachable (c : Nat) : Pool H S I → Prop
  | init : RoomyReachable c (newMemPool c)
  | add {mp : Pool H S I} (t : Transaction H S I) (fee : Feer S) (hroom : mp.count < c) :
      RoomyReachable c mp → RoomyReachable c (mp.add t fee).1
  | remove {mp : Pool H S I} (hash : H) : RoomyReachable c mp → RoomyReachable c (mp.remove hash)
  | removeStale {mp : Pool H S I} (isOK : Transaction H S I → Bool) (feer : Feer S) :
      RoomyReachable c mp → RoomyReachable c (mp.removeStale isOK feer)

theorem RoomyReachable.reachable {c : Nat} {mp : Pool H S I} (h : RoomyReachable c mp) :
    Reachable c mp := by
  induction h with
  | init => exact .init
  | add t fee _ _ ih => exact .add t fee ih
  | remove hash _ ih => exact .remove hash ih
  | removeStale isOK feer _ ih => exact .removeStale isOK feer ih

/-- The three indexes are the priority list's. -/
structure Pool.Indexed (mp : Pool H S I) : Prop where
  mapped : ∀ k x, mp.verifiedMap k = some x ↔ x ∈ mp.verifiedTxes ∧ x.txn.hash = k
  inputs : mp.inputs = (mp.verifiedTxes.flatMap (·.txn.inputs)).insertionSort (· ≤ ·)
  fees : ∀ s, ((mp.fees s).map (·.feeSum)).getD 0 = senderFeeSum mp.verifiedTxes s

/-! ## Sums, searches and sorts over the list -/

section Lemmas

omit [LinearOrder H] [LinearOrder I]

theorem senderFeeSum_perm {l l' : List (Item H S I)} (hp : l.Perm l') (s : S) :
    senderFeeSum l s = senderFeeSum l' s :=
  (hp.filter _).foldl_eq' (fun x _ y _ z => by
    rw [BitVec.add_assoc, BitVec.add_comm (x.txn.systemFee + _), ← BitVec.add_assoc]) 0

theorem senderFeeSum_cons (x : Item H S I) (l : List (Item H S I)) (s : S) :
    senderFeeSum (x :: l) s =
      if x.txn.sender = s then senderFeeSum l s + (x.txn.systemFee + x.txn.networkFee)
      else senderFeeSum l s := by
  rw [senderFeeSum_perm (List.perm_append_singleton x l).symm]
  split
  · subst_vars
    exact senderFeeSum_append_self l x
  · exact senderFeeSum_append_of_ne l ‹_›

theorem senderFeeSum_eq_zero {l : List (Item H S I)} {s : S}
    (hs : ∀ x ∈ l, x.txn.sender ≠ s) : senderFeeSum l s = 0 := by
  rw [senderFeeSum, List.filter_eq_nil_iff.mpr fun x hx => by simpa using hs x hx]
  rfl

omit [DecidableEq S] in
theorem senderEntry_feeSum (fees : S → Option UtilityBalanceAndFees) (feer : Feer S) (s : S) :
    (senderEntry fees feer s).feeSum = ((fees s).map (·.feeSum)).getD 0 := by
  unfold senderEntry
  cases fees s <;> rfl

omit [DecidableEq S] in
theorem perm_eraseIdx {α : Type} {v : List α} {i : Nat} (hi : i < v.length) :
    v.Perm (v[i] :: v.eraseIdx i) := by
  conv_lhs => rw [← List.take_append_drop i v, List.drop_eq_getElem_cons hi]
  rw [List.eraseIdx_eq_take_drop_succ]
  exact List.perm_middle

/-- The specification's split of `RemoveStale` partitions the list. -/
theorem staleSplit_perm (isOK : Transaction H S I → Bool) (feer : Feer S) (l : List (Item H S I)) :
    ((staleSplit isOK feer l).1 ++ (staleSplit isOK feer l).2).Perm l := by
  induction l using List.reverseRecOn with
  | nil => exact List.Perm.refl _
  | append_singleton l x ih =>
    rw [staleSplit_append]
    split
    · rw [List.append_assoc]
      refine (List.perm_append_comm.append_left _).trans ?_
      rw [← List.append_assoc]
      exact ih.append_right [x]
    · rw [← List.append_assoc]
      exact ih.append_right [x]

end Lemmas

omit [DecidableEq S] [LinearOrder I] in
theorem find?_hash_eq_some {v : List (Item H S I)} (hnd : (v.map (·.txn.hash)).Nodup) (k : H)
    (x : Item H S I) : v.find? (fun y => y.txn.hash == k) = some x ↔ x ∈ v ∧ x.txn.hash = k := by
  refine ⟨fun hx => ⟨List.mem_of_find?_eq_some hx, by simpa using List.find?_some hx⟩, ?_⟩
  rintro ⟨hx, rfl⟩
  obtain ⟨y, hy⟩ := Option.isSome_iff_exists.mp
    (List.find?_isSome.mpr ⟨x, hx, by simp⟩ : (v.find? fun y => y.txn.hash == x.txn.hash).isSome)
  have hyv := List.mem_of_find?_eq_some hy
  have hyk : y.txn.hash = x.txn.hash := by simpa using List.find?_some hy
  rw [hy, List.inj_on_of_nodup_map hnd hyv hx hyk]

theorem sort_eq_of_perm {l l' : List I} (hp : l.Perm l') :
    l.insertionSort (· ≤ ·) = l'.insertionSort (· ≤ ·) :=
  List.eq_of_perm_of_sorted (((List.perm_insertionSort _ _).trans hp).trans
    (List.perm_insertionSort _ _).symm) (List.sorted_insertionSort _ _) (List.sorted_insertionSort _ _)

/-! ## Each operation keeps the indexes -/

namespace Pool.Indexed

variable {mp : Pool H S I}

omit [LinearOrder H] in
theorem snapshot (hi : mp.Indexed) (s : S) (feer : Feer S) : (mp.snapshot s feer).Indexed := by
  refine ⟨hi.mapped, hi.inputs, fun s' => ?_⟩
  by_cases hs : s' = s
  · subst hs
    simp only [Pool.snapshot, Function.update_same, Option.map_some', Option.getD_some,
      senderEntry_feeSum]
    exact hi.fees s'
  · simp only [Pool.snapshot, Function.update_noteq hs]
    exact hi.fees s'

omit [LinearOrder H] in
theorem checkTxConflicts (hi : mp.Indexed) (t : Transaction H S I) (fee : Feer S) :
    (mp.checkTxConflicts t fee).2.Indexed := by
  rcases checkTxConflicts_snd mp t fee with he | he <;> rw [he]
  · exact hi
  · exact hi.snapshot _ _

/-- A successful `Add` into a pool with room. -/
theorem admitted (hi : mp.Indexed) (hroom : mp.verifiedTxes.length < mp.capacity)
    (t : Transaction H S I) (fee : Feer S)
    (hnd : ((mp.admitted t fee).verifiedTxes.map (·.txn.hash)).Nodup) :
    (mp.admitted t fee).Indexed := by
  have hperm : (mp.admitted t fee).verifiedTxes.Perm (addItem t fee :: mp.verifiedTxes) := by
    simp only [Pool.admitted]
    rw [List.take_of_length_le (by rw [List.orderedInsert_length]; omega)]
    exact List.perm_orderedInsert _ _ _
  have hgone : ∀ k, (if k ∈ t.hash :: mp.verifiedTxes.map (·.txn.hash) then none
      else mp.verifiedMap k) = none := fun k => by
    split
    · rfl
    · rename_i hk
      cases hm : mp.verifiedMap k with
      | none => rfl
      | some x =>
        obtain ⟨hx, rfl⟩ := (hi.mapped _ x).mp hm
        exact absurd (List.mem_cons_of_mem _ (List.mem_map_of_mem _ hx)) hk
  refine ⟨fun k x => ?_, ?_, fun s => ?_⟩
  · simp only [Pool.admitted, relistMap, hgone, Option.or_none]
    exact find?_hash_eq_some hnd k x
  · simp only [Pool.admitted]
    refine sort_eq_of_perm ?_
    rw [hi.inputs]
    refine ((List.perm_insertionSort _ _).append_left t.inputs).trans ?_
    exact (hperm.flatMap_right fun x : Item H S I => x.txn.inputs).symm
  · rw [senderFeeSum_perm hperm, senderFeeSum_cons, ← hi.fees]
    simp only [Pool.admitted, chargeSender, addItem_txn]
    by_cases hs : s = t.sender
    · subst hs
      simp [senderEntry_feeSum]
    · simp [Function.update_noteq hs, Ne.symm hs]

/-- `Remove`, on a pool whose hashes are distinct. -/
theorem remove (hi : mp.Indexed) (hnd : (mp.verifiedTxes.map (·.txn.hash)).Nodup) (hash : H) :
    (mp.remove hash).Indexed := by
  cases hm : mp.verifiedMap hash with
  | none => rwa [remove_of_none hm]
  | some it =>
    obtain ⟨hit, hith⟩ := (hi.mapped hash it).mp hm
    obtain ⟨hlt, hidx⟩ := (rangeIndex_spec mp.verifiedTxes hash).resolve_right
      fun hno => hno it hit hith
    set i := rangeIndex mp.verifiedTxes hash
    have hiit : mp.verifiedTxes[i] = it :=
      List.inj_on_of_nodup_map hnd (List.getElem_mem hlt) hit (hidx.trans hith.symm)
    have hperm : mp.verifiedTxes.Perm (it :: mp.verifiedTxes.eraseIdx i) :=
      hiit ▸ perm_eraseIdx hlt
    rw [remove_of_some hm]
    refine ⟨fun k x => ?_, ?_, fun s => ?_⟩ <;> dsimp only
    · by_cases hk : k = hash
      · subst hk
        rw [Function.update_same]
        exact ⟨fun h => Option.noConfusion h,
          fun ⟨hx, he⟩ => (hash_ne_of_mem_eraseIdx hnd hlt hx (he.trans hidx.symm)).elim⟩
      · simp only [Function.update_noteq hk, hi.mapped, hperm.mem_iff, List.mem_cons]
        constructor
        · rintro ⟨rfl | hx, rfl⟩
          · exact absurd hith hk
          · exact ⟨hx, rfl⟩
        · exact fun ⟨hx, he⟩ => ⟨.inr hx, he⟩
    · have hs := (hi.inputs ▸ List.sorted_insertionSort _ _ : mp.inputs.Sorted (· ≤ ·))
      refine List.eq_of_perm_of_sorted ?_ (foldl_drop_sorted hs _) (List.sorted_insertionSort _ _)
      rw [foldl_drop_eq hs, ← List.diff_eq_foldl, hi.inputs]
      refine ((List.perm_insertionSort _ _).diff_right _).trans ?_
      refine ((hperm.flatMap_right _).diff_right _).trans ?_
      refine (List.Perm.of_eq ?_).trans (List.perm_insertionSort _ _).symm
      rw [List.flatMap_cons]
      induction it.txn.inputs with
      | nil => exact List.diff_nil _
      | cons y ys ih => simpa [List.diff_cons] using ih
    · have hf := hi.fees s
      rw [senderFeeSum_perm hperm, senderFeeSum_cons] at hf
      by_cases hs : s = it.txn.sender
      · subst hs
        have hd : ((mp.fees it.txn.sender).getD {}).feeSum =
            ((mp.fees it.txn.sender).map (·.feeSum)).getD 0 := by
          cases mp.fees it.txn.sender <;> rfl
        simp only [Function.update_same, Option.map_some', Option.getD_some, hd, hf, if_true,
          BitVec.add_sub_cancel]
      · simp only [Function.update_noteq hs, hf, if_neg (Ne.symm hs)]

/-- `RemoveStale`, on a pool whose hashes are distinct. -/
theorem removeStale (hi : mp.Indexed) (hnd : (mp.verifiedTxes.map (·.txn.hash)).Nodup)
    (isOK : Transaction H S I → Bool) (feer : Feer S) : (mp.removeStale isOK feer).Indexed := by
  have hkept := staleSplit_kept isOK feer mp.verifiedTxes
  have hpart := staleSplit_perm isOK feer mp.verifiedTxes
  have hdisj := (List.nodup_append.mp (hpart.nodup_iff.mpr (List.Nodup.of_map _ hnd))).2.2
  rw [removeStale_eq_staleState]
  refine ⟨fun k x => ?_, rfl, fun s => ?_⟩ <;> dsimp only [staleState]
  · split
    · rename_i hk
      refine ⟨fun h => Option.noConfusion h, fun ⟨hx, hxk⟩ => ?_⟩
      obtain ⟨y, hy, hyk⟩ := List.mem_map.mp hk
      have hxy : x = y := List.inj_on_of_nodup_map hnd (hkept x hx).2
        (hpart.subset (List.mem_append_right _ hy)) (hxk.trans hyk.symm)
      exact (hdisj hx (hxy ▸ hy)).elim
    · rename_i hk
      rw [hi.mapped]
      constructor
      · rintro ⟨hx, rfl⟩
        rcases List.mem_append.mp (hpart.symm.subset hx) with hx | hx
        · exact ⟨hx, rfl⟩
        · exact absurd (List.mem_map_of_mem _ hx) hk
      · rintro ⟨hx, rfl⟩
        exact ⟨(hkept x hx).2, rfl⟩
  · unfold staleFees
    split
    · rfl
    · rename_i hany
      refine (senderFeeSum_eq_zero fun y hy hys => hany ?_).symm
      exact List.any_eq_true.mpr ⟨y, (hkept y hy).2, by simp [(hkept y hy).1, hys]⟩

end Pool.Indexed

omit [LinearOrder H] in
theorem indexed_newMemPool (c : Nat) : (newMemPool c : Pool H S I).Indexed :=
  ⟨fun _ _ => by simp [newMemPool], rfl, fun _ => rfl⟩

theorem add_fst_of_error {mp : Pool H S I} {t : Transaction H S I} {fee : Feer S} {e : PoolError}
    (hlt : mp.verifiedTxes.length < mp.capacity) (h : (mp.add t fee).2 = some e) :
    (mp.add t fee).1 = (mp.checkTxConflicts t fee).2 := by
  rw [add_eq] at h ⊢
  split_ifs at h ⊢
  · rfl
  · rfl
  · have hlt' : (mp.checkTxConflicts t fee).2.verifiedTxes.length <
        (mp.checkTxConflicts t fee).2.capacity := by
      rcases checkTxConflicts_snd mp t fee with he | he <;> rw [he] <;> exact hlt
    rw [(insert_of_lt hlt').1] at h
    cases h

/-- The run lemma: every pool of a run that never fills it is indexed. -/
theorem Pool.Indexed.of_roomy {c : Nat} {mp : Pool H S I} (h : RoomyReachable c mp) :
    mp.Indexed := by
  induction h with
  | init => exact indexed_newMemPool c
  | @add mp t fee hroom hr ih =>
    have hreach := hr.reachable
    have hlt : mp.verifiedTxes.length < mp.capacity := hreach.capacity ▸ hroom
    cases hres : (mp.add t fee).2 with
    | none =>
      have hnd := (Reachable.add t fee hreach).inv.hashes_nodup
      rw [add_eq_admitted hreach.inv hres] at hnd ⊢
      exact ih.admitted hlt t fee hnd
    | some e =>
      rw [add_fst_of_error hlt hres]
      exact ih.checkTxConflicts t fee
  | remove hash hr ih => exact ih.remove hr.reachable.inv.hashes_nodup hash
  | removeStale isOK feer hr ih => exact ih.removeStale hr.reachable.inv.hashes_nodup isOK feer

/-- **On every run that never fills the pool, its indexes are the priority list's**: the map
holds exactly the listed items, each under its hash; the input slice is the listed inputs,
sorted; and each sender's fee sum, zero when it has no entry, is the sum in `Fixed8` of its
listed items' fees. -/
theorem RoomyReachable.indexed {c : Nat} {mp : Pool H S I} (h : RoomyReachable c mp) :
    mp.Indexed :=
  Pool.Indexed.of_roomy h

/-- Two `Add`s into `NewMemPool(2)`, then `Remove` of the first. -/
def roomyPool : Pool Nat Nat Nat :=
  ((((newMemPool 2).add (sampleTx 1 20 [1]) (sampleFeer 1000)).1.add (sampleTx 2 30 [2, 3])
    (sampleFeer 1000)).1).remove 1

theorem indexed_on_roomyPool : RoomyReachable 2 roomyPool ∧ roomyPool.Indexed := by
  have h : RoomyReachable 2 roomyPool := .remove 1 (.add _ _ (by decide) (.add _ _ (by decide) .init))
  exact ⟨h, h.indexed⟩

/-- Four `Add`s into `NewMemPool(4)`: hashes 1 and 2, then hash 3, which spends an input of hash
2 and gets `ErrConflict`, then hash 4. The pool lists hashes 2, 4 and 1. -/
def busyPool : Pool Nat Nat Nat :=
  (((((newMemPool 4).add (sampleTx 1 20 [1]) (sampleFeer 1000)).1.add (sampleTx 2 30 [2, 3])
    (sampleFeer 1000)).1.add (sampleTx 3 40 [3]) (sampleFeer 1000)).1.add (sampleTx 4 25 [4])
    (sampleFeer 1000)).1

theorem roomyReachable_busyPool : RoomyReachable 4 busyPool :=
  .add _ _ (by decide) (.add _ _ (by decide) (.add _ _ (by decide) (.add _ _ (by decide) .init)))

/-! ## `Verify` and `Add` decide from the list

On an indexed pool the checks `Verify` and `Add` make on the indexes are checks on the listed
items: the input slice holds an input exactly when a listed item spends it, the map holds a
hash exactly when a listed item has it, and the fee sum the balance check adds to is the
listed items' sum. Only the balance itself is not the list's: it is the snapshot the pool took
when it first saw the sender.
-/

/-- What the listed items say about `tx`: none of them spends an input of `tx`, and the
sender's balance (the pool's snapshot, or what `feer` reports for a sender it has no entry
for) covers the fees of the sender's listed items and of `tx`, summed in `int64`. -/
def Pool.Admits (mp : Pool H S I) (tx : Transaction H S I) (feer : Feer S) : Prop :=
  (∀ x ∈ mp.verifiedTxes, ∀ i ∈ tx.inputs, i ∉ x.txn.inputs) ∧
    (senderFeeSum mp.verifiedTxes tx.sender + tx.systemFee + tx.networkFee).sle
      (senderEntry mp.fees feer tx.sender).balance = true

instance Pool.decidableAdmits (mp : Pool H S I) (tx : Transaction H S I) (feer : Feer S) :
    Decidable (mp.Admits tx feer) :=
  inferInstanceAs (Decidable (_ ∧ _))

namespace Pool.Indexed

variable {mp : Pool H S I}

omit [LinearOrder H] in
theorem areInputsInPool_eq_false (hi : mp.Indexed) (tx : Transaction H S I) :
    areInputsInPool tx.inputs mp.inputs = false ↔
      ∀ x ∈ mp.verifiedTxes, ∀ i ∈ tx.inputs, i ∉ x.txn.inputs := by
  have hs : mp.inputs.Sorted (· ≤ ·) := hi.inputs ▸ List.sorted_insertionSort _ _
  rw [← Bool.not_eq_true, areInputsInPool_iff hs, hi.inputs]
  simp only [List.mem_insertionSort, List.mem_flatMap]
  exact ⟨fun h x hx i hi hix => h ⟨i, hi, x, hx, hix⟩, fun h ⟨i, hi, x, hx, hix⟩ => h x hx i hi hix⟩

omit [LinearOrder H] in
theorem covers_eq (hi : mp.Indexed) (feer : Feer S) (tx : Transaction H S I) :
    (senderEntry mp.fees feer tx.sender).covers tx =
      (senderFeeSum mp.verifiedTxes tx.sender + tx.systemFee + tx.networkFee).sle
        (senderEntry mp.fees feer tx.sender).balance := by
  rw [UtilityBalanceAndFees.covers, senderEntry_feeSum, hi.fees]
  simp only [BitVec.slt, BitVec.sle, ← not_lt, decide_not]

omit [LinearOrder H] in
/-- **`Verify` on an indexed pool is the check on the listed items**: it answers true exactly
when no listed item spends an input of `tx` and the sender's balance covers its listed fees
and `tx`'s. -/
theorem verify_iff (hi : mp.Indexed) (tx : Transaction H S I) (feer : Feer S) :
    (mp.verify tx feer).1 = true ↔ mp.Admits tx feer := by
  rw [Pool.Admits, ← hi.areInputsInPool_eq_false, ← covers_eq hi, verify_eq, checkTxConflicts_eq]
  cases areInputsInPool tx.inputs mp.inputs <;> simp

/-- **`Add`'s verdict on an indexed pool with room is the listed items'**: `ErrConflict` when
they do not admit `t`, else `ErrDup` when one of them has `t`'s hash, else nil. -/
theorem add_verdict (hi : mp.Indexed) (hroom : mp.count < mp.capacity) (t : Transaction H S I)
    (fee : Feer S) :
    (mp.add t fee).2 =
      if ¬ mp.Admits t fee then some .errConflict
      else if ∃ x ∈ mp.verifiedTxes, x.txn.hash = t.hash then some .errDup
      else none := by
  have hv : (mp.checkTxConflicts t fee).1 = true ↔ mp.Admits t fee := hi.verify_iff t fee
  have hsnd := checkTxConflicts_snd mp t fee
  have hmap : (mp.checkTxConflicts t fee).2.verifiedMap = mp.verifiedMap := by
    rcases hsnd with he | he <;> rw [he]; rfl
  have hdup : (mp.checkTxConflicts t fee).2.containsKey t.hash = true ↔
      ∃ x ∈ mp.verifiedTxes, x.txn.hash = t.hash := by
    simp only [containsKey, hmap, Option.isSome_iff_exists, hi.mapped]
  have hlt : (mp.checkTxConflicts t fee).2.verifiedTxes.length <
      (mp.checkTxConflicts t fee).2.capacity := by
    rcases hsnd with he | he <;> rw [he] <;> exact hroom
  rw [add_eq]
  by_cases ha : mp.Admits t fee
  · rw [if_neg (by simp [hv.mpr ha]), if_neg (not_not.mpr ha)]
    by_cases hd : ∃ x ∈ mp.verifiedTxes, x.txn.hash = t.hash
    · rw [if_pos (hdup.mpr hd), if_pos hd]
    · rw [if_neg (mt hdup.mp hd), if_neg hd, (insert_of_lt hlt).1]
  · rw [if_pos (by rw [← Bool.not_eq_true]; exact mt hv.mp ha), if_pos ha]

end Pool.Indexed

/-- On `busyPool`, a transaction spending a listed input is refused and one spending a fresh
input is admitted, as the listed items say. -/
theorem verify_iff_on_busyPool :
    busyPool.Indexed ∧
      (((busyPool.verify (sampleTx 5 40 [3]) (sampleFeer 1000)).1 = true ↔
        busyPool.Admits (sampleTx 5 40 [3]) (sampleFeer 1000)) ∧
        (busyPool.verify (sampleTx 5 40 [3]) (sampleFeer 1000)).1 = false) ∧
      (((busyPool.verify (sampleTx 5 40 [5]) (sampleFeer 1000)).1 = true ↔
        busyPool.Admits (sampleTx 5 40 [5]) (sampleFeer 1000)) ∧
        (busyPool.verify (sampleTx 5 40 [5]) (sampleFeer 1000)).1 = true) :=
  ⟨roomyReachable_busyPool.indexed,
    ⟨Pool.Indexed.verify_iff roomyReachable_busyPool.indexed _ _, by decide⟩,
    ⟨Pool.Indexed.verify_iff roomyReachable_busyPool.indexed _ _, by decide⟩⟩

/-- On `busyPool`, with room left: `ErrConflict` for a transaction spending a listed input,
`ErrDup` for one with a listed hash and fresh inputs, nil for a new one. -/
theorem add_verdict_on_busyPool :
    busyPool.Indexed ∧ busyPool.count < busyPool.capacity ∧
      (busyPool.add (sampleTx 5 40 [3]) (sampleFeer 1000)).2 = some .errConflict ∧
      (busyPool.add (sampleTx 1 40 [5]) (sampleFeer 1000)).2 = some .errDup ∧
      (busyPool.add (sampleTx 5 40 [5]) (sampleFeer 1000)).2 = none :=
  have hi := roomyReachable_busyPool.indexed
  ⟨hi, by decide, (Pool.Indexed.add_verdict hi (by decide) _ _).trans (by decide),
    (Pool.Indexed.add_verdict hi (by decide) _ _).trans (by decide),
    (Pool.Indexed.add_verdict hi (by decide) _ _).trans (by decide)⟩

/-! ## No double spending

`Add` turns away a transaction that spends an input of a listed one, as long as the input
slice holds every listed input; `Remove` and `RemoveStale` only take items off the list.
-/

theorem add_inputs_free {mp : Pool H S I} {t : Transaction H S I} {fee : Feer S}
    (h : (mp.add t fee).2 = none) : areInputsInPool t.inputs mp.inputs = false := by
  rw [add_eq, checkTxConflicts_eq] at h
  cases hin : areInputsInPool t.inputs mp.inputs
  · rfl
  · simp [hin] at h

theorem remove_verifiedTxes_sublist (mp : Pool H S I) (hash : H) :
    (mp.remove hash).verifiedTxes.Sublist mp.verifiedTxes := by
  cases hm : mp.verifiedMap hash with
  | none => rw [remove_of_none hm]
  | some it => rw [remove_of_some hm]; exact List.eraseIdx_sublist _ _

/-- **No two pooled transactions spend one input**, on every run that never fills the
pool. -/
theorem RoomyReachable.inputs_disjoint {c : Nat} {mp : Pool H S I} (h : RoomyReachable c mp) :
    mp.verifiedTxes.Pairwise fun x y => ∀ i ∈ x.txn.inputs, i ∉ y.txn.inputs := by
  have hsymm : ∀ {x y : Item H S I}, (∀ i ∈ x.txn.inputs, i ∉ y.txn.inputs) →
      ∀ i ∈ y.txn.inputs, i ∉ x.txn.inputs := fun hxy i hy hx => hxy i hx hy
  induction h with
  | init => exact List.Pairwise.nil
  | @add mp t fee hroom hr ih =>
    have hreach := hr.reachable
    have hlt : mp.verifiedTxes.length < mp.capacity := hreach.capacity ▸ hroom
    cases hres : (mp.add t fee).2 with
    | none =>
      have hfree := ((Pool.Indexed.of_roomy hr).areInputsInPool_eq_false t).mp (add_inputs_free hres)
      have hlen : (mp.verifiedTxes.orderedInsert Item.Outranks (addItem t fee)).length ≤
          mp.capacity := by
        rw [List.orderedInsert_length]; omega
      rw [add_eq_admitted hreach.inv hres, Pool.admitted, List.take_of_length_le hlen]
      refine List.Pairwise.perm ?_ (List.perm_orderedInsert _ _ _).symm hsymm
      exact List.pairwise_cons.mpr ⟨fun y hy => by rw [addItem_txn]; exact fun i hi => hfree y hy i hi, ih⟩
    | some e =>
      rw [add_fst_of_error hlt hres]
      rcases checkTxConflicts_snd mp t fee with he | he <;> rw [he] <;> exact ih
  | remove hash _ ih => exact ih.sublist (remove_verifiedTxes_sublist _ hash)
  | removeStale isOK feer _ ih =>
    rw [removeStale_eq_staleState]
    obtain ⟨l, hp, hsub⟩ := ((List.sublist_append_left _ _).subperm.trans
      (staleSplit_perm isOK feer _).subperm : (staleSplit isOK feer _).1.Subperm _)
    exact (ih.sublist hsub).perm hp hsymm

/-- `busyPool` lists three transactions, and the one that would spend a listed input again was
refused. -/
theorem inputs_disjoint_on_busyPool : RoomyReachable 4 busyPool ∧
    busyPool.verifiedTxes.map (·.txn.inputs) = [[2, 3], [4], [1]] ∧
    busyPool.verifiedTxes.Pairwise fun x y => ∀ i ∈ x.txn.inputs, i ∉ y.txn.inputs :=
  ⟨roomyReachable_busyPool, by decide, roomyReachable_busyPool.inputs_disjoint⟩

/-- A run that fills `NewMemPool(2)`: `Add`s of hashes 1 and 4; an `Add` of hash 2, spending
input 5, that gets `ErrOOM` and leaves its hash in the map; `Remove(1)`; an `Add` of hash 3
spending input 5; `Remove(2)`, which finds hash 2 in the map but in no slot, so it takes the
last item (hash 4) off the list and input 5 out of the slice; and an `Add` of hash 6 spending
input 5. -/
def doubleSpendPool : Pool Nat Nat Nat :=
  ((((((((newMemPool 2).add (sampleTx 1 30 [1]) (sampleFeer 1000)).1.add (sampleTx 4 25 [4])
    (sampleFeer 1000)).1.add (sampleTx 2 10 [5]) (sampleFeer 1000)).1.remove 1).add
    (sampleTx 3 40 [5]) (sampleFeer 1000)).1.remove 2).add (sampleTx 6 50 [5]) (sampleFeer 1000)).1

/- Without the room, the pool can end up with two transactions spending one input. -/
example : Reachable 2 doubleSpendPool ∧ doubleSpendPool.verifiedTxes.map (·.txn.inputs) = [[5], [5]] :=
  ⟨.add _ _ (.remove _ (.add _ _ (.remove _ (.add _ _ (.add _ _ (.add _ _ .init)))))), by decide⟩

/-! ## `Remove` in any order

On an indexed pool with distinct hashes, `Remove` of a hash the map holds deletes that hash's
item from the list and the map, takes its fees off its sender's sum and its inputs out of the
slice. Two such removals commute, so removing a block's transactions from a pool that was
never full gives the same pool in any order.
-/

/-- The fees map after `Remove` of `t`'s item: its fees taken off its sender's sum, from a zero
entry when the sender has none. -/
def unchargeSender (fees : S → Option UtilityBalanceAndFees) (t : Transaction H S I) :
    S → Option UtilityBalanceAndFees :=
  Function.update fees t.sender (some { (fees t.sender).getD {} with
    feeSum := ((fees t.sender).getD {}).feeSum - (t.systemFee + t.networkFee) })

omit [LinearOrder H] [LinearOrder I] in
theorem unchargeSender_comm (fees : S → Option UtilityBalanceAndFees) (t₁ t₂ : Transaction H S I) :
    unchargeSender (unchargeSender fees t₁) t₂ = unchargeSender (unchargeSender fees t₂) t₁ := by
  by_cases hs : t₁.sender = t₂.sender
  · funext s
    by_cases h : s = t₂.sender
    · simp only [unchargeSender, Function.update_apply, hs, h, if_true, Option.getD_some,
        BitVec.sub_toAdd, BitVec.add_assoc, BitVec.add_comm (-(t₁.systemFee + t₁.networkFee))]
    · simp [unchargeSender, Function.update_apply, hs, h]
  · simp only [unchargeSender, Function.update_noteq hs, Function.update_noteq (Ne.symm hs)]
    exact Function.update_comm hs _ _ _

omit [DecidableEq S] [LinearOrder I] in
/-- In a list with distinct hashes, deleting an index keeps exactly the items of the other
hashes. -/
theorem eraseIdx_eq_filter_hash : ∀ {v : List (Item H S I)} {i : Nat},
    (v.map (·.txn.hash)).Nodup → (hi : i < v.length) →
      v.eraseIdx i = v.filter fun x => x.txn.hash ≠ v[i].txn.hash
  | [], _, _, hi => absurd hi (Nat.not_lt_zero _)
  | x :: v, 0, hnd, _ => by
    have hx : ∀ y ∈ v, y.txn.hash ≠ x.txn.hash := fun y hy he =>
      (List.nodup_cons.mp hnd).1 (List.mem_map.mpr ⟨y, hy, he⟩)
    rw [List.eraseIdx_cons_zero, List.getElem_cons_zero, List.filter_cons_of_neg (by simp),
      List.filter_eq_self.mpr fun y hy => by simpa using hx y hy]
  | x :: v, i + 1, hnd, hi => by
    have hi' : i < v.length := Nat.lt_of_succ_lt_succ hi
    have hx : x.txn.hash ≠ v[i].txn.hash := fun he =>
      (List.nodup_cons.mp hnd).1 (List.mem_map.mpr ⟨v[i], List.getElem_mem _, he.symm⟩)
    rw [List.eraseIdx_cons_succ, List.getElem_cons_succ, List.filter_cons_of_pos (by simpa using hx),
      eraseIdx_eq_filter_hash (List.nodup_cons.mp hnd).2 hi']

theorem remove_verifiedMap_of_none {mp : Pool H S I} {a : H} (b : H) (ha : mp.verifiedMap a = none) :
    (mp.remove b).verifiedMap a = none := by
  cases hb : mp.verifiedMap b with
  | none => rw [remove_of_none hb, ha]
  | some _ =>
    rw [remove_of_some hb]
    by_cases hab : a = b
    · exact hab ▸ Function.update_same _ _ _
    · exact (Function.update_noteq hab _ _).trans ha

/-- **`Remove` on an indexed pool with distinct hashes**, of a hash the map holds. -/
theorem Pool.Indexed.remove_eq {mp : Pool H S I} (hi : mp.Indexed)
    (hnd : (mp.verifiedTxes.map (·.txn.hash)).Nodup) {a : H} {it : Item H S I}
    (hm : mp.verifiedMap a = some it) :
    mp.remove a =
      { verifiedMap := Function.update mp.verifiedMap a none
        verifiedTxes := mp.verifiedTxes.filter fun x => x.txn.hash ≠ a
        inputs := mp.inputs.diff it.txn.inputs
        fees := unchargeSender mp.fees it.txn
        capacity := mp.capacity } := by
  obtain ⟨hit, hith⟩ := (hi.mapped a it).mp hm
  obtain ⟨hlt, hidx⟩ := (rangeIndex_spec mp.verifiedTxes a).resolve_right fun hno => hno it hit hith
  have hs : mp.inputs.Sorted (· ≤ ·) := hi.inputs ▸ List.sorted_insertionSort _ _
  rw [remove_of_some hm, eraseIdx_eq_filter_hash hnd hlt, hidx, foldl_drop_eq hs,
    ← List.diff_eq_foldl]
  rfl

/-- **Two `Remove`s commute** on every pool of a run that never fills it. -/
theorem RoomyReachable.remove_remove {c : Nat} {mp : Pool H S I} (h : RoomyReachable c mp)
    (a b : H) : (mp.remove a).remove b = (mp.remove b).remove a := by
  by_cases hab : a = b
  · rw [hab]
  cases ha : mp.verifiedMap a with
  | none => rw [remove_of_none ha, remove_of_none (remove_verifiedMap_of_none b ha)]
  | some ia =>
    cases hb : mp.verifiedMap b with
    | none => rw [remove_of_none hb, remove_of_none (remove_verifiedMap_of_none a hb)]
    | some ib =>
      have hi := Pool.Indexed.of_roomy h
      have hnd := h.reachable.inv.hashes_nodup
      have hb' : (mp.remove a).verifiedMap b = some ib := by
        rw [hi.remove_eq hnd ha]; exact (Function.update_noteq (Ne.symm hab) _ _).trans hb
      have ha' : (mp.remove b).verifiedMap a = some ia := by
        rw [hi.remove_eq hnd hb]; exact (Function.update_noteq hab _ _).trans ha
      rw [(Pool.Indexed.of_roomy (h.remove a)).remove_eq (h.remove a).reachable.inv.hashes_nodup hb',
        (Pool.Indexed.of_roomy (h.remove b)).remove_eq (h.remove b).reachable.inv.hashes_nodup ha',
        hi.remove_eq hnd ha, hi.remove_eq hnd hb]
      congr 1
      · exact Function.update_comm hab _ _ _
      · simp only [List.filter_filter, Bool.and_comm]
      · rw [← List.diff_append, ← List.diff_append, List.Perm.diff_left _ List.perm_append_comm]
      · exact unchargeSender_comm _ _ _

/-- **`Remove`s in any order leave the same pool**, on every pool of a run that never fills it:
removing a block's transactions one by one does not depend on their order. -/
theorem RoomyReachable.foldl_remove_perm {c : Nat} {l₁ l₂ : List H} (hp : l₁.Perm l₂) :
    ∀ {mp : Pool H S I}, RoomyReachable c mp → l₁.foldl Pool.remove mp = l₂.foldl Pool.remove mp := by
  induction hp with
  | nil => exact fun _ => rfl
  | cons x _ ih => exact fun h => ih (h.remove x)
  | swap x y l =>
    intro mp h
    rw [List.foldl_cons, List.foldl_cons, h.remove_remove y x]
    rfl
  | trans _ _ ih₁ ih₂ => exact fun h => (ih₁ h).trans (ih₂ h)

/-- Two listed transactions of `busyPool`, removed in either order; both removals act. -/
theorem foldl_remove_perm_on_busyPool :
    [1, 2].Perm [2, 1] ∧ RoomyReachable 4 busyPool ∧
      [1, 2].foldl Pool.remove busyPool = [2, 1].foldl Pool.remove busyPool ∧
      ([1, 2].foldl Pool.remove busyPool).verifiedTxes.map (·.txn.hash) = [4] :=
  ⟨List.Perm.swap 2 1 [], roomyReachable_busyPool,
    RoomyReachable.foldl_remove_perm (List.Perm.swap 2 1 []) roomyReachable_busyPool, by decide⟩

end NeoGo.Mempool
