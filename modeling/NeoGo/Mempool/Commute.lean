import NeoGo.Mempool.Invariant

/-! # Two successful `Add`s commute

`Pool.admitted` is what a successful `Add` does, said without slices, binary searches or
evictions: the item goes into the priority list in order and the list is cut to the
capacity, the map is brought in line with the list, the inputs are merged in order and the
sender is charged. `add_eq_admitted` says that every successful `Add` from a pool that keeps
`Inv` is that step, and `admitted_comm` that two such steps for different hashes commute,
whatever the pool's fill. Together they make `Add` independent of the order of its calls,
also when both calls evict.
-/

namespace NeoGo.Mempool

open NeoGo.Sort Pool

variable {H S I : Type} [LinearOrder H] [DecidableEq S] [LinearOrder I]

/-! ## The abstract step -/

/-- The map that goes with the list `v`: every listed item under its hash, every hash of
`gone` that is not listed deleted, every other entry as it was. -/
def relistMap (m : H → Option (Item H S I)) (gone : List H) (v : List (Item H S I)) :
    H → Option (Item H S I) :=
  fun k => (v.find? fun x => x.txn.hash == k).or (if k ∈ gone then none else m k)

/-- The fees map with `t`'s fees added to its sender's sum, starting from the balance
snapshot for a sender seen for the first time. -/
def chargeSender (fees : S → Option UtilityBalanceAndFees) (feer : Feer S) (t : Transaction H S I) :
    S → Option UtilityBalanceAndFees :=
  Function.update fees t.sender (some { senderEntry fees feer t.sender with
    feeSum := (senderEntry fees feer t.sender).feeSum + (t.systemFee + t.networkFee) })

/-- A successful `Add` of `t`. -/
def Pool.admitted (mp : Pool H S I) (t : Transaction H S I) (fee : Feer S) : Pool H S I :=
  let v := (mp.verifiedTxes.orderedInsert Item.Outranks (addItem t fee)).take mp.capacity
  { verifiedMap := relistMap mp.verifiedMap (t.hash :: mp.verifiedTxes.map (·.txn.hash)) v
    verifiedTxes := v
    inputs := (t.inputs ++ mp.inputs).insertionSort (· ≤ ·)
    fees := chargeSender mp.fees fee t
    capacity := mp.capacity }

omit [DecidableEq S] [LinearOrder I] in
theorem relistMap_congr {m : H → Option (Item H S I)} {gone gone' : List H}
    (h : ∀ k, k ∈ gone ↔ k ∈ gone') (v : List (Item H S I)) :
    relistMap m gone v = relistMap m gone' v := by
  funext k; simp only [relistMap, h]

omit [DecidableEq S] [LinearOrder I] in
/-- Re-synchronising twice is re-synchronising once with both lists of hashes, as long as
the second covers the intermediate list. -/
theorem relistMap_relistMap (m : H → Option (Item H S I)) (gone₁ gone₂ : List H)
    (v₁ v₂ : List (Item H S I)) (hcov : ∀ x ∈ v₁, x.txn.hash ∈ gone₂) :
    relistMap (relistMap m gone₁ v₁) gone₂ v₂ = relistMap m (gone₂ ++ gone₁) v₂ := by
  funext k
  simp only [relistMap]
  cases v₂.find? (fun x => x.txn.hash == k) with
  | some x => rfl
  | none =>
    by_cases hk : k ∈ gone₂
    · simp [hk]
    · have hv₁ : v₁.find? (fun x => x.txn.hash == k) = none :=
        List.find?_eq_none.mpr fun x hx he => hk (by simpa using (beq_iff_eq.mp he) ▸ hcov x hx)
      simp [hk, hv₁]

omit [DecidableEq S] [LinearOrder I] in
/-- A map that holds the listed items, and off the list is what `relistMap` says, is
`relistMap`. -/
theorem eq_relistMap {m m' : H → Option (Item H S I)} {gone : List H} {v : List (Item H S I)}
    (hv : ∀ x ∈ v, m' x.txn.hash = some x)
    (hoff : ∀ k, (∀ x ∈ v, x.txn.hash ≠ k) → m' k = if k ∈ gone then none else m k) :
    m' = relistMap m gone v := by
  funext k
  simp only [relistMap]
  cases hf : v.find? (fun x => x.txn.hash == k) with
  | some x =>
    have hx : x.txn.hash = k := by simpa using List.find?_some hf
    rw [← hx]
    exact hv x (List.mem_of_find?_eq_some hf)
  | none =>
    exact hoff k fun x hx he => by simpa [he] using List.find?_eq_none.mp hf x hx

omit [LinearOrder H] [LinearOrder I] in
theorem chargeSender_comm (fees : S → Option UtilityBalanceAndFees) (feer : Feer S)
    (t₁ t₂ : Transaction H S I) :
    chargeSender (chargeSender fees feer t₁) feer t₂ = chargeSender (chargeSender fees feer t₂) feer t₁ := by
  by_cases hs : t₁.sender = t₂.sender
  · funext s
    by_cases h : s = t₂.sender
    · simp [chargeSender, senderEntry, Function.update_apply, hs, h, BitVec.add_assoc,
        BitVec.add_comm (t₁.systemFee + t₁.networkFee)]
    · simp [chargeSender, Function.update_apply, hs, h]
  · simp only [chargeSender, senderEntry, Function.update_noteq hs, Function.update_noteq (Ne.symm hs)]
    exact Function.update_comm hs _ _ _

theorem insertionSort_append_comm (a b l : List I) :
    (b ++ (a ++ l).insertionSort (· ≤ ·)).insertionSort (· ≤ ·) =
      (a ++ (b ++ l).insertionSort (· ≤ ·)).insertionSort (· ≤ ·) := by
  have hperm : ∀ a b : List I,
      ((b ++ (a ++ l).insertionSort (· ≤ ·)).insertionSort (· ≤ ·)).Perm (b ++ a ++ l) :=
    fun a b => (List.perm_insertionSort _ _).trans
      (((List.perm_insertionSort _ _).append_left b).trans (by rw [List.append_assoc]))
  exact List.eq_of_perm_of_sorted ((hperm a b).trans (List.perm_append_comm.append_right l |>.trans
    (hperm b a).symm)) (List.sorted_insertionSort _ _) (List.sorted_insertionSort _ _)

omit [DecidableEq S] [LinearOrder I] in
theorem orderedInsert_comm {L : List (Item H S I)} {p q : Item H S I} (hp : Fits L p)
    (hq : Fits L q) (hpq : p.txn.hash ≠ q.txn.hash) :
    (L.orderedInsert Item.Outranks p).orderedInsert Item.Outranks q =
      (L.orderedInsert Item.Outranks q).orderedInsert Item.Outranks p := by
  have hperm : ∀ a b : Item H S I,
      ((L.orderedInsert Item.Outranks a).orderedInsert Item.Outranks b).Perm (b :: a :: L) :=
    fun a b => (List.perm_orderedInsert _ _ _).trans ((List.perm_orderedInsert _ _ _).cons b)
  exact List.eq_of_perm_of_sorted ((hperm p q).trans ((List.Perm.swap p q L).trans (hperm q p).symm))
    (hp.orderedInsert hq.fresh hpq).orderedInsert_sorted
    (hq.orderedInsert hp.fresh (Ne.symm hpq)).orderedInsert_sorted

/-- Two admissions in a row are one step: both items inserted, both senders charged. -/
theorem admitted_admitted (mp : Pool H S I) (t₁ t₂ : Transaction H S I) (fee : Feer S) :
    (mp.admitted t₁ fee).admitted t₂ fee =
      let v := ((mp.verifiedTxes.orderedInsert Item.Outranks (addItem t₁ fee)).orderedInsert
        Item.Outranks (addItem t₂ fee)).take mp.capacity
      { verifiedMap := relistMap mp.verifiedMap (t₂.hash :: t₁.hash :: mp.verifiedTxes.map (·.txn.hash)) v
        verifiedTxes := v
        inputs := (t₂.inputs ++ (t₁.inputs ++ mp.inputs).insertionSort (· ≤ ·)).insertionSort (· ≤ ·)
        fees := chargeSender (chargeSender mp.fees fee t₁) fee t₂
        capacity := mp.capacity } := by
  simp only [Pool.admitted, take_orderedInsert_take]
  congr 1
  rw [relistMap_relistMap _ _ _ _ _ fun x hx =>
    List.mem_cons_of_mem _ (List.mem_map_of_mem (fun x => x.txn.hash) hx)]
  refine relistMap_congr (fun k => ?_) _
  simp only [List.cons_append, List.mem_cons, List.mem_append, List.mem_map]
  constructor
  · rintro (h | ⟨x, hx, rfl⟩ | h | h)
    · exact .inl h
    · rcases (List.mem_orderedInsert _).mp (List.mem_of_mem_take hx) with rfl | hx
      · exact .inr (.inl rfl)
      · exact .inr (.inr ⟨x, hx, rfl⟩)
    · exact .inr (.inl h)
    · exact .inr (.inr h)
  · rintro (h | h | h)
    · exact .inl h
    · exact .inr (.inr (.inl h))
    · exact .inr (.inr (.inr h))

/-- **Admissions of different fresh hashes commute**, full pool or not. -/
theorem admitted_comm {mp : Pool H S I} {t₁ t₂ : Transaction H S I} {fee : Feer S}
    (h₁ : Fits mp.verifiedTxes (addItem t₁ fee)) (h₂ : Fits mp.verifiedTxes (addItem t₂ fee))
    (h₁₂ : t₁.hash ≠ t₂.hash) :
    (mp.admitted t₁ fee).admitted t₂ fee = (mp.admitted t₂ fee).admitted t₁ fee := by
  rw [admitted_admitted, admitted_admitted, orderedInsert_comm h₁ h₂ h₁₂,
    insertionSort_append_comm, chargeSender_comm]
  dsimp only
  rw [relistMap_congr fun k => (List.Perm.swap t₁.hash t₂.hash _).mem_iff]

/-! ## Refinement: a successful `Add` is an admission -/

section Refinement

variable {mp : Pool H S I} {t : Transaction H S I} {fee : Feer S}

theorem add_of_ok (h : (mp.add t fee).2 = none) :
    mp.containsKey t.hash = false ∧ mp.add t fee = (mp.snapshot t.sender fee).insert (addItem t fee) := by
  rw [add_eq] at h ⊢
  have hok : (mp.checkTxConflicts t fee).1 = true := by
    by_contra hok; simp [Bool.eq_false_iff.mpr hok] at h
  have hsnap : (mp.checkTxConflicts t fee).2 = mp.snapshot t.sender fee := by
    rw [checkTxConflicts_eq] at hok ⊢; split at hok <;> simp_all
  have hkey : (mp.snapshot t.sender fee).containsKey t.hash = mp.containsKey t.hash := rfl
  rw [hsnap, hkey] at h ⊢
  cases hdup : mp.containsKey t.hash <;> simp_all

omit [LinearOrder H] [LinearOrder I] in
theorem addSendersFee_snapshot_fees (mp : Pool H S I) (t : Transaction H S I) (fee : Feer S) :
    ((mp.snapshot t.sender fee).addSendersFee t).fees = chargeSender mp.fees fee t := by
  simp [Pool.addSendersFee, snapshot, chargeSender]

omit [LinearOrder H] [DecidableEq S] [LinearOrder I] in
theorem not_mem_hashes {L : List (Item H S I)} {p : Item H S I} {k : H} (hkp : p.txn.hash ≠ k)
    (hkL : ∀ x ∈ L, x.txn.hash ≠ k) : k ∉ p.txn.hash :: L.map (·.txn.hash) := by
  simp only [List.mem_cons, List.mem_map, not_or, not_exists, not_and]
  exact ⟨hkp.symm, hkL⟩

/-- A successful `insert` pushes the inputs, charges the sender, and off its new list the map
deletes the new item's and the old list's hashes and keeps the rest. -/
theorem insert_of_ok {p : Item H S I} (hm : mp.Inv) (hp : mp.containsKey p.txn.hash = false)
    (h : (mp.insert p).2 = none) :
    (mp.insert p).1.inputs = p.txn.inputs.foldl pushInputToSortedSlice mp.inputs ∧
    (mp.insert p).1.fees = (mp.addSendersFee p.txn).fees ∧
    ∀ k, (∀ x ∈ (mp.insert p).1.verifiedTxes, x.txn.hash ≠ k) →
      (mp.insert p).1.verifiedMap k =
        if k ∈ p.txn.hash :: mp.verifiedTxes.map (·.txn.hash) then none else mp.verifiedMap k := by
  have hfits := hm.fits hp
  by_cases hfull : mp.verifiedTxes.length = mp.capacity
  · have hidx : insertIndex mp.verifiedTxes p ≠ mp.verifiedTxes.length := fun hidx => by
      rw [insert_snd hfits, if_pos ⟨hfull, (insertIndex_eq_length_iff hfits).mp hidx⟩] at h
      cases h
    obtain ⟨u, hu, -⟩ := getLast?_of_lt (Nat.lt_of_le_of_ne (search_le _ _) hidx)
    obtain ⟨-, hmap, hin, hfee⟩ := insert_of_full hfull hidx hu
    refine ⟨hin, hfee, fun k hk => ?_⟩
    have hkept := (insert_verifiedTxes_perm_of_full hfits hfull hidx).symm.subset
    have hkp : p.txn.hash ≠ k := hk p (hkept (List.mem_cons_self _ _))
    rw [hmap]
    by_cases hku : k = u.txn.hash
    · rw [hku, Function.update_same,
        if_pos (List.mem_cons_of_mem _ (List.mem_map_of_mem _ (List.mem_of_getLast?_eq_some hu)))]
    · have hkL : ∀ x ∈ mp.verifiedTxes, x.txn.hash ≠ k := fun x hx => by
        rw [← List.dropLast_append_getLast? u hu] at hx
        rcases List.mem_append.mp hx with hx | hx
        · exact hk x (hkept (List.mem_cons_of_mem _ hx))
        · rw [List.mem_singleton.mp hx]; exact Ne.symm hku
      rw [Function.update_noteq hku, Function.update_noteq hkp.symm, if_neg (not_mem_hashes hkp hkL)]
  · obtain ⟨-, hmap, hin, hfee⟩ := insert_of_lt (p := p) (Nat.lt_of_le_of_ne hm.bounded hfull)
    refine ⟨hin, hfee, fun k hk => ?_⟩
    have hkept := (insert_verifiedTxes_perm_of_lt hfits (Nat.lt_of_le_of_ne hm.bounded hfull)).symm.subset
    have hkp : p.txn.hash ≠ k := hk p (hkept (List.mem_cons_self _ _))
    have hkL : ∀ x ∈ mp.verifiedTxes, x.txn.hash ≠ k := fun x hx => hk x (hkept (List.mem_cons_of_mem _ hx))
    rw [hmap, Function.update_noteq hkp.symm, if_neg (not_mem_hashes hkp hkL)]

/-- **A successful `Add` is an admission.** -/
theorem add_eq_admitted (hm : mp.Inv) (h : (mp.add t fee).2 = none) :
    (mp.add t fee).1 = mp.admitted t fee := by
  obtain ⟨hfresh, hadd⟩ := add_of_ok h
  have hs := hm.snapshot t.sender fee
  rw [hadd] at h ⊢
  obtain ⟨hin, hfee, hoff⟩ := insert_of_ok (p := addItem t fee) hs hfresh h
  have hlist := insert_verifiedTxes (hs.fits (p := addItem t fee) hfresh) hs.bounded
  refine Pool.ext ?_ hlist (hin.trans (foldl_push_eq_insertionSort hm.inputsSorted _))
    (hfee.trans (addSendersFee_snapshot_fees mp t fee)) insert_capacity
  rw [eq_relistMap (hs.insert (p := addItem t fee) hfresh).mapped hoff, hlist]
  rfl

end Refinement

/-- **Two successful `Add`s commute.** From a reachable pool, when `Add(t₁)` then `Add(t₂)`
and `Add(t₂)` then `Add(t₁)` all return nil, the two pools are equal: the same list, the same
map, the same inputs and the same fees. -/
theorem add_add_comm {c : Nat} {mp : Pool H S I} (hr : Reachable c mp) {t₁ t₂ : Transaction H S I}
    {fee : Feer S} (h₁₂ : t₁.hash ≠ t₂.hash) (h₁ : (mp.add t₁ fee).2 = none)
    (h₁₂ok : ((mp.add t₁ fee).1.add t₂ fee).2 = none) (h₂ : (mp.add t₂ fee).2 = none)
    (h₂₁ok : ((mp.add t₂ fee).1.add t₁ fee).2 = none) :
    ((mp.add t₁ fee).1.add t₂ fee).1 = ((mp.add t₂ fee).1.add t₁ fee).1 := by
  have hm := hr.inv
  rw [add_eq_admitted (hm.add t₁ fee) h₁₂ok, add_eq_admitted (hm.add t₂ fee) h₂₁ok,
    add_eq_admitted hm h₁, add_eq_admitted hm h₂]
  exact admitted_comm (hm.fits (add_of_ok h₁).1) (hm.fits (add_of_ok h₂).1) h₁₂

/-- A full pool of capacity 2 holding the transactions of hashes 1 and 2. -/
def twoPool : Pool Nat Nat Nat :=
  (((newMemPool 2).add (sampleTx 1 10 [1]) (sampleFeer 1000)).1.add (sampleTx 2 20 [2])
    (sampleFeer 1000)).1

/-- Adding the transactions of hashes 3 and 4 to the full `twoPool`, each call evicting, in
either order. -/
theorem add_add_comm_of_two_evictions :
    twoPool.count = 2 ∧ twoPool.capacity = 2 ∧
      ((twoPool.add (sampleTx 3 30 [3]) (sampleFeer 1000)).1.add (sampleTx 4 40 [4]) (sampleFeer 1000)).1 =
        ((twoPool.add (sampleTx 4 40 [4]) (sampleFeer 1000)).1.add (sampleTx 3 30 [3]) (sampleFeer 1000)).1 :=
  ⟨by decide, rfl, add_add_comm (.add _ _ (.add _ _ .init)) (by decide) (by decide) (by decide)
    (by decide) (by decide)⟩

end NeoGo.Mempool
