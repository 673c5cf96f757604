import NeoGo.Mempool.Step
import Mathlib.Data.List.Chain

/-! # The pool's ordering invariant over every run

`Reachable c` is every pool `NewMemPool(c)` reaches by `Add`, `Remove` and `RemoveStale`
calls with any transactions, fee policies and predicates, error returns included. `Inv`
holds of each of them: the priority list is strictly descending, every listed item is what
the map holds under its hash, the list fits the capacity and the input slice is sorted.
Each operation keeps `Inv` by its step lemma, and `Reachable.inv` assembles them.
-/

namespace NeoGo.Mempool

open NeoGo.Sort

variable {H S I : Type} [LinearOrder H] [DecidableEq S] [LinearOrder I]

/-- The pools reachable from `NewMemPool(c)`. -/
inductive Reachable (c : Nat) : Pool H S I → Prop
  | init : Reachable c (newMemPool c)
  | add {mp : Pool H S I} (t : Transaction H S I) (fee : Feer S) :
      Reachable c mp → Reachable c (mp.add t fee).1
  | remove {mp : Pool H S I} (hash : H) : Reachable c mp → Reachable c (mp.remove hash)
  | removeStale {mp : Pool H S I} (isOK : Transaction H S I → Bool) (feer : Feer S) :
      Reachable c mp → Reachable c (mp.removeStale isOK feer)

namespace Pool

/-- The ordering invariant. -/
structure Inv (mp : Pool H S I) : Prop where
  sorted : mp.verifiedTxes.Pairwise Item.Outranks
  mapped : ∀ x ∈ mp.verifiedTxes, mp.verifiedMap x.txn.hash = some x
  bounded : mp.verifiedTxes.length ≤ mp.capacity
  inputsSorted : mp.inputs.Sorted (· ≤ ·)

variable {mp : Pool H S I}

omit [DecidableEq S] in
theorem Inv.hashes_nodup (h : mp.Inv) : (mp.verifiedTxes.map (·.txn.hash)).Nodup :=
  h.sorted.nodup.map_on fun x hx y hy he =>
    Option.some.inj ((h.mapped x hx).symm.trans (he ▸ h.mapped y hy))

omit [DecidableEq S] in
theorem Inv.fits (h : mp.Inv) {p : Item H S I} (hp : mp.containsKey p.txn.hash = false) :
    Fits mp.verifiedTxes p :=
  ⟨h.sorted, fun x hx he => by simp [containsKey, ← he, h.mapped x hx] at hp⟩

theorem Inv.snapshot (h : mp.Inv) (s : S) (feer : Feer S) : (mp.snapshot s feer).Inv :=
  ⟨h.sorted, h.mapped, h.bounded, h.inputsSorted⟩

theorem Inv.checkTxConflicts (h : mp.Inv) (t : Transaction H S I) (fee : Feer S) :
    (mp.checkTxConflicts t fee).2.Inv := by
  rcases checkTxConflicts_snd mp t fee with he | he <;> rw [he]
  · exact h
  · exact h.snapshot _ _

/-- `insert` keeps the invariant on each of its three paths. -/
theorem Inv.insert (h : mp.Inv) {p : Item H S I} (hp : mp.containsKey p.txn.hash = false) :
    (mp.insert p).1.Inv := by
  have hfits := h.fits hp
  have hlist := insert_verifiedTxes hfits h.bounded
  have hsorted : (mp.insert p).1.verifiedTxes.Pairwise Item.Outranks :=
    hlist ▸ hfits.orderedInsert_sorted.sublist (List.take_sublist _ _)
  have hbounded : (mp.insert p).1.verifiedTxes.length ≤ (mp.insert p).1.capacity := by
    rw [hlist, insert_capacity]; exact List.length_take_le _ _
  by_cases hfull : mp.verifiedTxes.length = mp.capacity
  · by_cases hidx : insertIndex mp.verifiedTxes p = mp.verifiedTxes.length
    · -- `ErrOOM`: only the map changes, and it gains `p`
      rw [insert_fst_of_errOOM hfull hidx]
      exact ⟨h.sorted, fun x hx => by simp [Function.update_noteq (hfits.fresh x hx), h.mapped x hx],
        h.bounded, h.inputsSorted⟩
    · -- the last item `u` is evicted
      obtain ⟨u, hu, humem⟩ := getLast?_of_lt (Nat.lt_of_le_of_ne (search_le _ _) hidx)
      obtain ⟨-, hmap, hin, -⟩ := insert_of_full hfull hidx hu
      refine ⟨hsorted, fun x hx => ?_, hbounded, hin ▸ foldl_push_sorted h.inputsSorted _⟩
      rw [hmap]
      have hnd := h.hashes_nodup
      rw [← List.dropLast_append_getLast? u hu, List.map_append, List.nodup_append] at hnd
      rcases List.mem_cons.mp ((insert_verifiedTxes_perm_of_full hfits hfull hidx).subset hx)
        with rfl | hx
      · rw [Function.update_noteq (hfits.fresh u humem).symm]; simp
      · have hxu : x.txn.hash ≠ u.txn.hash := fun he =>
          hnd.2.2 (List.mem_map_of_mem _ hx) (by simp [he])
        rw [Function.update_noteq hxu, Function.update_noteq
          (hfits.fresh x (List.dropLast_subset _ hx)), h.mapped x (List.dropLast_subset _ hx)]
  · -- there is room: `p` is placed
    have hlt := Nat.lt_of_le_of_ne h.bounded hfull
    obtain ⟨-, hmap, hin, -⟩ := insert_of_lt (p := p) hlt
    refine ⟨hsorted, fun x hx => ?_, hbounded, hin ▸ foldl_push_sorted h.inputsSorted _⟩
    rw [hmap]
    rcases List.mem_cons.mp ((insert_verifiedTxes_perm_of_lt hfits hlt).subset hx) with rfl | hx
    · simp
    · rw [Function.update_noteq (hfits.fresh x hx), h.mapped x hx]

theorem Inv.add (h : mp.Inv) (t : Transaction H S I) (fee : Feer S) : (mp.add t fee).1.Inv := by
  have hc := h.checkTxConflicts t fee
  rw [add_eq]
  split
  · exact hc
  · split
    · exact hc
    · exact hc.insert (Bool.eq_false_iff.mpr ‹_›)

theorem Inv.remove (h : mp.Inv) (hash : H) : (mp.remove hash).Inv := by
  cases hm : mp.verifiedMap hash with
  | none => rw [remove_of_none hm]; exact h
  | some it =>
    have hsub : (mp.remove hash).verifiedTxes.Sublist mp.verifiedTxes := by
      rw [remove_of_some hm]; exact List.eraseIdx_sublist _ _
    refine ⟨h.sorted.sublist hsub, fun x hx => ?_, ?_, ?_⟩
    · have hne := hash_ne_of_mem_remove h.hashes_nodup hm hx
      rw [remove_of_some hm]
      simp [Function.update_noteq hne, h.mapped x (hsub.subset hx)]
    · exact (hsub.length_le).trans (by simpa using h.bounded)
    · rw [remove_of_some hm]; exact foldl_drop_sorted h.inputsSorted _

theorem removeStale_eq (mp : Pool H S I) (isOK : Transaction H S I → Bool) (feer : Feer S) :
    mp.removeStale isOK feer =
      let r := mp.verifiedTxes.foldl (staleStep isOK feer) ({ mp with fees := fun _ => none }, [], [])
      { r.1 with verifiedTxes := r.2.1, inputs := r.2.2.insertionSort (· ≤ ·) } := rfl

theorem Inv.removeStale (h : mp.Inv) (isOK : Transaction H S I → Bool) (feer : Feer S) :
    (mp.removeStale isOK feer).Inv := by
  obtain ⟨sel, hsub, h1, -, -, -, h5, h6⟩ :=
    foldl_staleStep isOK feer mp.verifiedTxes { mp with fees := fun _ => none } [] [] h.hashes_nodup
  rw [removeStale_eq]
  dsimp only
  simp only [List.nil_append] at h1
  refine ⟨by rw [h1]; exact h.sorted.sublist hsub, fun x hx => ?_, ?_,
    List.sorted_insertionSort _ _⟩
  · rw [h1] at hx
    rcases h6 x.txn.hash with he | ⟨-, -, -, -, hz⟩
    · rw [he]; exact h.mapped x (hsub.subset hx)
    · exact absurd rfl (hz x hx)
  · rw [h1, h5]; exact hsub.length_le.trans h.bounded

omit [DecidableEq S] in
theorem inv_newMemPool (c : Nat) : (newMemPool c : Pool H S I).Inv :=
  ⟨List.Pairwise.nil, by simp [newMemPool], by simp [newMemPool], List.sorted_nil⟩

end Pool

open Pool

theorem Reachable.inv {c : Nat} {mp : Pool H S I} (h : Reachable c mp) : mp.Inv := by
  induction h with
  | init => exact inv_newMemPool c
  | add t fee _ ih => exact ih.add t fee
  | remove hash _ ih => exact ih.remove hash
  | removeStale isOK feer _ ih => exact ih.removeStale isOK feer

theorem Reachable.capacity {c : Nat} {mp : Pool H S I} (h : Reachable c mp) : mp.capacity = c := by
  induction h with
  | init => rfl
  | add t fee _ ih => rw [add_capacity, ih]
  | remove hash _ ih => rw [remove_capacity, ih]
  | @removeStale mp isOK feer hr ih =>
    obtain ⟨-, -, -, -, -, -, h5, -⟩ := foldl_staleStep isOK feer mp.verifiedTxes
      { mp with fees := fun _ => none } [] [] hr.inv.hashes_nodup
    rw [removeStale_eq]
    exact h5.trans ih

/-- **The priority list of every reachable pool is strictly descending under
`item.CompareTo`, carries no hash twice and fits the capacity.** -/
theorem reachable_verifiedTxes_descending {c : Nat} {mp : Pool H S I} (h : Reachable c mp) :
    mp.verifiedTxes.Chain' (fun a b => a.compareTo b > 0) ∧
      (mp.verifiedTxes.map (·.txn.hash)).Nodup ∧ mp.verifiedTxes.length ≤ c :=
  ⟨h.inv.sorted.chain', h.inv.hashes_nodup, h.capacity ▸ h.inv.bounded⟩

/-- A transaction with hash and sender `h`, network fee `fee` and the given inputs. -/
def sampleTx (h : Nat) (fee : Fixed8) (inputs : List Nat) : Transaction Nat Nat Nat :=
  { hash := h, sender := h, systemFee := 0, networkFee := fee, size := 1, inputs := inputs }

/-- A fee policy reporting the same balance for every sender and nothing as low priority. -/
def sampleFeer (balance : Fixed8) : Feer Nat :=
  { getUtilityTokenBalance := fun _ => balance, isLowPriority := fun _ => false }

/-- `NewMemPool(3)` after `Add`s of network fees 10, 30, 20 and 25, the last one evicting the
item of fee 10. -/
def sortedPool : Pool Nat Nat Nat :=
  (((((newMemPool 3).add (sampleTx 1 10 [1]) (sampleFeer 1000)).1.add (sampleTx 2 30 [2])
    (sampleFeer 1000)).1.add (sampleTx 3 20 [3]) (sampleFeer 1000)).1.add (sampleTx 4 25 [4])
    (sampleFeer 1000)).1

/-- The pool of three items that four `Add`s out of order and an eviction leave. -/
theorem reachable_verifiedTxes_descending_on_sortedPool :
    Reachable 3 sortedPool ∧ sortedPool.verifiedTxes.map (·.txn.hash) = [2, 4, 3] ∧
      (sortedPool.verifiedTxes.Chain' (fun a b => a.compareTo b > 0) ∧
        (sortedPool.verifiedTxes.map (·.txn.hash)).Nodup ∧ sortedPool.verifiedTxes.length ≤ 3) :=
  ⟨.add _ _ (.add _ _ (.add _ _ (.add _ _ .init))), by decide,
    reachable_verifiedTxes_descending (.add _ _ (.add _ _ (.add _ _ (.add _ _ .init))))⟩

/-! ## What `Add` leaves behind

`Inv` is about the listed items only. The map's keys, the input slice and the fee sums are
not kept in step with the list: `Add` writes the map before its capacity check and returns
`ErrOOM` without undoing it, and on eviction it removes the lowest item from the list and
the map but leaves that item's inputs in `inputs` and its fees in its sender's `feeSum`.
The runs below use one-input transactions whose hash, sender and input coincide.
-/

/-- A full pool of capacity 1 holding the transaction of hash 1. -/
def fullPool : Pool Nat Nat Nat := ((newMemPool 1).add (sampleTx 1 20 [1]) (sampleFeer 1000)).1

/-- An `ErrOOM` leaves the rejected hash in the map, and a later `Remove` of that hash
deletes the last listed item instead, which stays in the map. -/
theorem add_errOOM_keeps_key :
    ((fullPool.add (sampleTx 2 10 [2]) (sampleFeer 1000)).2 = some .errOOM ∧
      (fullPool.add (sampleTx 2 10 [2]) (sampleFeer 1000)).1.containsKey 2 = true ∧
      (fullPool.add (sampleTx 2 10 [2]) (sampleFeer 1000)).1.verifiedTxes.map (·.txn.hash) = [1]) ∧
    (((fullPool.add (sampleTx 2 10 [2]) (sampleFeer 1000)).1.remove 2).verifiedTxes = [] ∧
      ((fullPool.add (sampleTx 2 10 [2]) (sampleFeer 1000)).1.remove 2).containsKey 1 = true) := by
  decide

/-- The pool after the transaction of hash 2 has evicted that of hash 1. -/
def evictedPool : Pool Nat Nat Nat := (fullPool.add (sampleTx 2 30 [2]) (sampleFeer 1000)).1

/-- After an eviction the evicted transaction's input stays in `inputs`, and a new
transaction spending it is refused as a conflict with a pool that no longer holds it. -/
theorem evicted_inputs_stay :
    evictedPool.verifiedTxes.map (·.txn.hash) = [2] ∧ evictedPool.inputs = [1, 2] ∧
      (evictedPool.add (sampleTx 3 40 [1]) (sampleFeer 1000)).2 = some .errConflict := by
  decide

/-- After an eviction the evicted transaction's fees stay in its sender's `feeSum`. -/
theorem evicted_fees_stay :
    evictedPool.verifiedTxes.map (·.txn.sender) = [2] ∧
      (evictedPool.fees 1).map (·.feeSum) = some 20 := by
  decide

/-- A transaction whose two fees are `2^62` each. -/
def overflowTx : Transaction Nat Nat Nat :=
  { hash := 1, sender := 1, systemFee := BitVec.ofNat 64 (2 ^ 62),
    networkFee := BitVec.ofNat 64 (2 ^ 62), size := 1, inputs := [] }

/-- `feeSum + SystemFee + NetworkFee` wraps past `2^63 - 1`: a sender with balance 100 gets a
transaction whose fees sum to `2^63` into the pool. -/
theorem add_fee_sum_wraps :
    ((newMemPool 1).add overflowTx (sampleFeer 100)).2 = none ∧
      ((newMemPool 1).add overflowTx (sampleFeer 100)).1.verifiedTxes.map (·.txn.hash) = [1] ∧
      (((newMemPool 1).add overflowTx (sampleFeer 100)).1.fees 1).map (·.balance.toInt) = some 100 ∧
      overflowTx.systemFee.toInt + overflowTx.networkFee.toInt = 2 ^ 63 := by
  decide

end NeoGo.Mempool
