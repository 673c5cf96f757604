import NeoGo.Sort
import NeoGo.Mempool.Item

/-! # The pool's sorted slice of inputs

The pool keeps every input of every pooled transaction in one slice sorted by `Input.Cmp`,
so that a conflict is one binary search per input. The three helpers here find, insert and
drop by that search. On a sorted slice they are `orderedInsert`, `erase` and membership, and
the pool's proofs cite those equations and never the slice code.
-/

namespace NeoGo.Mempool

open NeoGo.Sort

variable {I : Type} [LinearOrder I]

/-- `Input.Cmp`, a total order that is zero only on equal inputs. -/
def Input.cmp (a b : I) : Int := cmpInt a b

/-- `findIndexForInput`: the first index whose input is not below `input`. -/
def findIndexForInput (slice : List I) (input : I) : Nat :=
  search slice.length fun n => slice[n]?.any fun y => decide (Input.cmp input y ≤ 0)

def pushInputToSortedSlice (slice : List I) (input : I) : List I :=
  let n := findIndexForInput slice input
  let slice := slice ++ [input]
  if n ≠ slice.length - 1 then (shiftRight slice n).set n input else slice

/-- `dropInputFromSortedSlice`; `copy(s[n:], s[n+1:])` followed by `s[:len(s)-1]` is
`s[:n] ++ s[n+1:]`. -/
def dropInputFromSortedSlice (slice : List I) (input : I) : List I :=
  let n := findIndexForInput slice input
  if n = slice.length ∨ slice[n]? ≠ some input then slice
  else slice.take n ++ slice.drop (n + 1)

def areInputsInPool (inputs pool : List I) : Bool :=
  inputs.any fun x =>
    let n := findIndexForInput pool x
    decide (n < pool.length) && pool[n]? == some x

theorem cmpInt_nonpos_iff {a b : I} : cmpInt a b ≤ 0 ↔ a ≤ b := by
  unfold cmpInt
  rcases lt_trichotomy a b with h | rfl | h
  · simp [h, h.le]
  · simp
  · simp [h, not_lt_of_gt h, h.ne', not_le_of_gt h]

theorem findIndexForInput_eq {slice : List I} (hs : slice.Sorted (· ≤ ·)) (input : I) :
    findIndexForInput slice input = slice.findIdx fun y => decide (input ≤ y) := by
  have hmono : slice.Pairwise fun a b =>
      decide (input ≤ a) = true → decide (input ≤ b) = true :=
    hs.imp fun hab ha => decide_eq_true (le_trans (of_decide_eq_true ha) hab)
  simp only [findIndexForInput, Input.cmp, cmpInt_nonpos_iff]
  exact search_eq_findIdx slice _ hmono

theorem pushInputToSortedSlice_eq_take_drop (slice : List I) (input : I) :
    pushInputToSortedSlice slice input =
      slice.take (findIndexForInput slice input) ++ input :: slice.drop (findIndexForInput slice input) := by
  have hle : findIndexForInput slice input ≤ slice.length := search_le _ _
  simp only [pushInputToSortedSlice, List.length_append, List.length_singleton, Nat.add_sub_cancel]
  split
  · rw [shiftRight_set _ (by simp; omega), List.take_append_of_le_length hle,
      List.drop_append_of_le_length hle, List.dropLast_concat]
  · rename_i h
    have hn : findIndexForInput slice input = slice.length := by omega
    rw [hn, List.take_length, List.drop_length]

theorem pushInputToSortedSlice_eq {slice : List I} (hs : slice.Sorted (· ≤ ·)) (input : I) :
    pushInputToSortedSlice slice input = slice.orderedInsert (· ≤ ·) input := by
  rw [pushInputToSortedSlice_eq_take_drop, findIndexForInput_eq hs,
    orderedInsert_eq_take_drop_findIdx]

theorem pushInputToSortedSlice_sorted {slice : List I} (hs : slice.Sorted (· ≤ ·)) (input : I) :
    (pushInputToSortedSlice slice input).Sorted (· ≤ ·) := by
  rw [pushInputToSortedSlice_eq hs]; exact hs.orderedInsert input slice

theorem pushInputToSortedSlice_perm (slice : List I) (input : I) :
    (pushInputToSortedSlice slice input).Perm (input :: slice) := by
  rw [pushInputToSortedSlice_eq_take_drop]
  exact List.perm_middle.trans (by rw [List.take_append_drop])

/-- On a sorted slice, the input the search lands on is `input` exactly when `input` is in it. -/
theorem getElem?_findIdx_eq_some_iff {slice : List I} (hs : slice.Sorted (· ≤ ·)) (input : I) :
    slice[slice.findIdx fun y => decide (input ≤ y)]? = some input ↔ input ∈ slice := by
  constructor
  · exact List.getElem?_mem
  · intro hmem
    obtain ⟨k, hk, rfl⟩ := List.getElem_of_mem hmem
    have hle : slice.findIdx (fun y => decide (slice[k] ≤ y)) ≤ k := by
      by_contra hlt
      simpa using List.not_of_lt_findIdx (Nat.lt_of_not_le hlt)
    have hfirst := List.findIdx_getElem (w := Nat.lt_of_le_of_lt hle hk)
      (p := fun y => decide (slice[k] ≤ y))
    rw [List.getElem?_eq_getElem (Nat.lt_of_le_of_lt hle hk)]
    congr 1
    rcases Nat.lt_or_eq_of_le hle with hlt | heq
    · exact le_antisymm (List.pairwise_iff_getElem.mp hs _ _ _ hk hlt) (of_decide_eq_true hfirst)
    · simp [heq]

theorem ne_of_mem_take_findIdx {slice : List I} {input y : I}
    (hy : y ∈ slice.take (slice.findIdx fun y => decide (input ≤ y))) : y ≠ input := by
  obtain ⟨k, hk, rfl⟩ := List.getElem_of_mem hy
  simp only [List.length_take, Nat.lt_min] at hk
  rw [List.getElem_take]
  intro he
  simpa [he] using List.not_of_lt_findIdx hk.1

/-- On a sorted slice, the drop removes one occurrence of `input`, if there is one. -/
theorem dropInputFromSortedSlice_eq {slice : List I} (hs : slice.Sorted (· ≤ ·)) (input : I) :
    dropInputFromSortedSlice slice input = slice.erase input := by
  have hget := getElem?_findIdx_eq_some_iff hs input
  simp only [dropInputFromSortedSlice, findIndexForInput_eq hs]
  split
  · rename_i h
    refine (List.erase_of_not_mem fun hmem => ?_).symm
    have hsome := hget.mpr hmem
    rcases h with h | h
    · rw [h] at hsome; simp at hsome
    · exact h hsome
  · rename_i h
    push_neg at h
    set n := slice.findIdx fun y => decide (input ≤ y)
    have hsplit : slice = slice.take n ++ input :: slice.drop (n + 1) := by
      conv_lhs => rw [← List.take_append_drop n slice]
      obtain ⟨hn, hx⟩ := List.getElem?_eq_some_iff.mp h.2
      rw [List.drop_eq_getElem_cons hn]
      simp [hx]
    conv_rhs => rw [hsplit]
    rw [List.erase_append_right _ fun hm => ne_of_mem_take_findIdx hm rfl, List.erase_cons_head]

theorem dropInputFromSortedSlice_sorted {slice : List I} (hs : slice.Sorted (· ≤ ·)) (input : I) :
    (dropInputFromSortedSlice slice input).Sorted (· ≤ ·) := by
  rw [dropInputFromSortedSlice_eq hs]; exact hs.sublist (List.erase_sublist _ _)

/-- **`areInputsInPool` is overlap**, on a sorted pool. -/
theorem areInputsInPool_iff {pool : List I} (hs : pool.Sorted (· ≤ ·)) (inputs : List I) :
    areInputsInPool inputs pool = true ↔ ∃ x ∈ inputs, x ∈ pool := by
  simp only [areInputsInPool, List.any_eq_true, Bool.and_eq_true, decide_eq_true_eq, beq_iff_eq,
    findIndexForInput_eq hs]
  refine exists_congr fun x => and_congr_right fun _ => ?_
  rw [← getElem?_findIdx_eq_some_iff hs x]
  constructor
  · exact fun h => h.2
  · exact fun h => ⟨(List.getElem?_eq_some_iff.mp h).1, h⟩

/-- **The sorted slice's helpers are a sorted multiset's operations.** On a slice sorted by
`Input.Cmp`, the push keeps it sorted and adds the input, the drop removes one occurrence of
the input when there is one and nothing otherwise, and `areInputsInPool` is overlap. -/
theorem sortedSlice_push_drop_overlap {slice : List I}
    (hs : slice.Sorted fun a b => Input.cmp a b ≤ 0) (input : I) :
    ((pushInputToSortedSlice slice input).Sorted (fun a b => Input.cmp a b ≤ 0) ∧
        (pushInputToSortedSlice slice input).Perm (input :: slice)) ∧
      (input ∈ slice → dropInputFromSortedSlice slice input = slice.erase input) ∧
      (input ∉ slice → dropInputFromSortedSlice slice input = slice) ∧
      ∀ inputs, areInputsInPool inputs slice = true ↔ ∃ x ∈ inputs, x ∈ slice := by
  have hrel : (fun a b : I => Input.cmp a b ≤ 0) = (· ≤ ·) :=
    funext fun _ => funext fun _ => propext cmpInt_nonpos_iff
  rw [hrel] at hs ⊢
  exact ⟨⟨pushInputToSortedSlice_sorted hs input, pushInputToSortedSlice_perm slice input⟩,
    fun _ => dropInputFromSortedSlice_eq hs input,
    fun hx => (dropInputFromSortedSlice_eq hs input).trans (List.erase_of_not_mem hx),
    areInputsInPool_iff hs⟩

/-- The helpers on the slice `[1, 3]` and the input `2`. -/
theorem sortedSlice_push_drop_overlap_on_two :
    ([1, 3] : List Nat).Sorted (fun a b => Input.cmp a b ≤ 0) ∧
      ((pushInputToSortedSlice [1, 3] 2).Sorted (fun a b => Input.cmp a b ≤ 0) ∧
          (pushInputToSortedSlice [1, 3] 2).Perm [2, 1, 3]) ∧
        (2 ∈ [1, 3] → dropInputFromSortedSlice [1, 3] 2 = [1, 3].erase 2) ∧
        (2 ∉ [1, 3] → dropInputFromSortedSlice [1, 3] 2 = [1, 3]) ∧
        ∀ inputs, areInputsInPool inputs [1, 3] = true ↔ ∃ x ∈ inputs, x ∈ [1, 3] :=
  ⟨by decide, sortedSlice_push_drop_overlap (by decide) 2⟩

/-! ## Pushing and dropping a transaction's inputs -/

theorem foldl_push_sorted {slice : List I} (hs : slice.Sorted (· ≤ ·)) (xs : List I) :
    (xs.foldl pushInputToSortedSlice slice).Sorted (· ≤ ·) := by
  induction xs generalizing slice with
  | nil => exact hs
  | cons x xs ih => exact ih (pushInputToSortedSlice_sorted hs x)

theorem foldl_push_perm (slice xs : List I) :
    (xs.foldl pushInputToSortedSlice slice).Perm (xs ++ slice) := by
  induction xs generalizing slice with
  | nil => rfl
  | cons x xs ih =>
    refine (ih _).trans ?_
    exact ((pushInputToSortedSlice_perm slice x).append_left xs).trans List.perm_middle

theorem foldl_push_eq_insertionSort {slice : List I} (hs : slice.Sorted (· ≤ ·)) (xs : List I) :
    xs.foldl pushInputToSortedSlice slice = (xs ++ slice).insertionSort (· ≤ ·) :=
  List.eq_of_perm_of_sorted ((foldl_push_perm _ _).trans (List.perm_insertionSort _ _).symm)
    (foldl_push_sorted hs _) (List.sorted_insertionSort _ _)

theorem foldl_drop_eq {slice : List I} (hs : slice.Sorted (· ≤ ·)) (xs : List I) :
    xs.foldl dropInputFromSortedSlice slice = xs.foldl List.erase slice := by
  induction xs generalizing slice with
  | nil => rfl
  | cons x xs ih =>
    rw [List.foldl_cons, List.foldl_cons, ← dropInputFromSortedSlice_eq hs,
      ih (dropInputFromSortedSlice_sorted hs x)]

theorem foldl_drop_sorted {slice : List I} (hs : slice.Sorted (· ≤ ·)) (xs : List I) :
    (xs.foldl dropInputFromSortedSlice slice).Sorted (· ≤ ·) := by
  induction xs generalizing slice with
  | nil => exact hs
  | cons x xs ih => exact ih (dropInputFromSortedSlice_sorted hs x)

theorem foldl_drop_foldl_push {slice : List I} (hs : slice.Sorted (· ≤ ·)) (xs : List I) :
    xs.foldl dropInputFromSortedSlice (xs.foldl pushInputToSortedSlice slice) = slice := by
  have hp := foldl_push_sorted hs xs
  have hdiff : ∀ ys : List I, (ys ++ slice).diff ys = slice := fun ys => by
    induction ys with
    | nil => exact List.diff_nil _
    | cons y ys ih => simpa [List.diff_cons] using ih
  refine List.eq_of_perm_of_sorted ?_ (foldl_drop_sorted hp xs) hs
  rw [foldl_drop_eq hp, ← List.diff_eq_foldl]
  exact ((foldl_push_perm slice xs).diff_right xs).trans (by rw [hdiff xs])

end NeoGo.Mempool
