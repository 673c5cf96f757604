import Mathlib.Data.List.Sort

/-! # Go's `sort.Search` and the slice idioms around it

`sort.Search(n, f)` bisects `[0, n)` for the first index at which `f` holds, assuming `f` is
false and then true. The memory pool finds insertion points with it, in its priority list and
in its sorted slice of inputs. `search` is the library's loop, bounded by a fuel of `n`
bisections (each one shrinks `[i, j)`, so the bound is never reached), and
`search_eq_findIdx` says that on any list along which the predicate, once true, stays true,
it finds what a linear scan finds. The second half states once what the pool's
`append`/`copy`/assign idioms compute, so that the pool's proofs never look at slices again.
-/

namespace NeoGo.Sort

/-! ## Bisection -/

/-- The bisection loop of `sort.Search` on `[i, j)`. -/
def searchLoop (f : Nat → Bool) : Nat → Nat → Nat → Nat
  | 0, i, _ => i
  | fuel + 1, i, j =>
    if i < j then
      let h := (i + j) / 2
      if !f h then searchLoop f fuel (h + 1) j else searchLoop f fuel i h
    else i

/-- `sort.Search(n, f)`. -/
def search (n : Nat) (f : Nat → Bool) : Nat := searchLoop f n 0 n

theorem searchLoop_le (f : Nat → Bool) : ∀ fuel i j, i ≤ j → searchLoop f fuel i j ≤ j
  | 0, _, _, h => h
  | fuel + 1, i, j, h => by
    simp only [searchLoop]
    split
    · split
      · exact searchLoop_le f fuel _ _ (by omega)
      · exact Nat.le_trans (searchLoop_le f fuel _ _ (by omega)) (by omega)
    · exact h

theorem search_le (n : Nat) (f : Nat → Bool) : search n f ≤ n := searchLoop_le f n 0 n (Nat.zero_le n)

theorem searchLoop_eq {f : Nat → Bool} {n m : Nat} (hf : ∀ k < n, f k = true ↔ m ≤ k) :
    ∀ fuel i j, i ≤ m → m ≤ j → j ≤ n → j - i ≤ fuel → searchLoop f fuel i j = m
  | 0, i, j, hi, hj, _, hfuel => by simp only [searchLoop]; omega
  | fuel + 1, i, j, hi, hj, hjn, hfuel => by
    simp only [searchLoop]
    split
    · have hk := hf ((i + j) / 2) (by omega)
      cases hfh : f ((i + j) / 2)
      · exact searchLoop_eq hf fuel _ _ (by simp [hfh] at hk; omega) hj hjn (by omega)
      · exact searchLoop_eq hf fuel _ _ hi (by simp [hfh] at hk; omega) (by omega) (by omega)
    · omega

/-- Along a list on which `g`, once true, stays true, `g` holds at index `k` exactly from the
first index where it holds. -/
theorem any_getElem?_iff {α : Type} {L : List α} {g : α → Bool}
    (hmono : L.Pairwise fun a b => g a = true → g b = true) {k : Nat} (hk : k < L.length) :
    (L[k]?.any g) = true ↔ L.findIdx g ≤ k := by
  rw [List.getElem?_eq_getElem hk, Option.any_some]
  constructor
  · intro hg
    by_contra hlt
    simp [List.not_of_lt_findIdx (Nat.lt_of_not_le hlt)] at hg
  · intro hle
    have hfirst : g L[L.findIdx g] = true := List.findIdx_getElem (w := by omega)
    rcases Nat.lt_or_eq_of_le hle with hlt | heq
    · exact List.pairwise_iff_getElem.mp hmono _ _ (by omega) hk hlt hfirst
    · simpa [heq] using hfirst

/-- **Binary search finds the first match.** -/
theorem search_eq_findIdx {α : Type} (L : List α) (g : α → Bool)
    (hmono : L.Pairwise fun a b => g a = true → g b = true) :
    search L.length (fun k => L[k]?.any g) = L.findIdx g :=
  searchLoop_eq (fun _ hk => any_getElem?_iff hmono hk) _ _ _ (Nat.zero_le _)
    (List.findIdx_le_length g) le_rfl le_rfl

/-! ## Slices -/

/-- `copy(s[n+1:], s[n:])`: from index `n` on, every element moves one place right; the one
at `n` stays and the last one is overwritten. -/
def shiftRight {α : Type} (s : List α) (n : Nat) : List α := s.take (n + 1) ++ (s.drop n).dropLast

theorem length_shiftRight {α : Type} (s : List α) {n : Nat} (hn : n < s.length) :
    (shiftRight s n).length = s.length := by
  simp [shiftRight]; omega

theorem shiftRight_set {α : Type} (s : List α) {n : Nat} (hn : n < s.length) (x : α) :
    (shiftRight s n).set n x = s.take n ++ x :: (s.drop n).dropLast := by
  have htake : s.take (n + 1) = s.take n ++ [s[n]] := by
    rw [List.take_succ, List.getElem?_eq_getElem hn]; rfl
  rw [shiftRight, htake, List.append_assoc, List.set_append_right _ _ (by simp)]
  simp [Nat.min_eq_left (Nat.le_of_lt hn)]

theorem take_append_cons_drop_dropLast {α : Type} (s : List α) (n : Nat) (x : α) (hn : n < s.length) :
    s.take n ++ x :: (s.drop n).dropLast = (s.take n ++ x :: s.drop n).dropLast := by
  rw [List.dropLast_append_cons, List.dropLast_cons_of_ne_nil]
  exact List.ne_nil_of_length_pos (by simp; omega)

/-! ## Ordered insertion -/

section OrderedInsert

variable {α : Type} (r : α → α → Prop) [DecidableRel r]

theorem orderedInsert_eq_take_drop_findIdx (a : α) (l : List α) :
    l.orderedInsert r a =
      l.take (l.findIdx fun b => decide (r a b)) ++ a :: l.drop (l.findIdx fun b => decide (r a b)) := by
  induction l with
  | nil => rfl
  | cons b l ih =>
    by_cases h : r a b
    · simp [List.orderedInsert, h, List.findIdx_cons]
    · simp [List.orderedInsert, h, List.findIdx_cons, ih]

theorem take_orderedInsert_take (a : α) :
    ∀ (c : Nat) (l : List α), (((l.take c).orderedInsert r a).take c) = (l.orderedInsert r a).take c
  | 0, _ => by simp
  | _ + 1, [] => by simp
  | c + 1, b :: l => by
    by_cases h : r a b
    · simp only [List.orderedInsert, h, if_true, List.take_succ_cons]
      cases c <;> simp [List.take_take]
    · simp [List.orderedInsert, h, take_orderedInsert_take a c l]

/-- A list sorted by a transitive relation stays sorted when `a` is inserted, as long as `a`
is related one way or the other to every element. -/
theorem Pairwise.orderedInsert [IsTrans α r] {a : α} {l : List α} (hl : l.Pairwise r)
    (hcmp : ∀ b ∈ l, r a b ∨ r b a) : (l.orderedInsert r a).Pairwise r := by
  induction l with
  | nil => simp
  | cons b l ih =>
    obtain ⟨hb, hl'⟩ := List.pairwise_cons.mp hl
    by_cases h : r a b
    · rw [List.orderedInsert, if_pos h, List.pairwise_cons]
      refine ⟨fun c hc => ?_, hl⟩
      rcases List.mem_cons.mp hc with rfl | hc
      · exact h
      · exact trans_of r h (hb c hc)
    · rw [List.orderedInsert, if_neg h, List.pairwise_cons]
      refine ⟨fun c hc => ?_, ih hl' fun c hc => hcmp c (List.mem_cons_of_mem _ hc)⟩
      rcases (List.mem_orderedInsert r).mp hc with rfl | hc
      · exact (hcmp b (List.mem_cons_self _ _)).resolve_left h
      · exact hb c hc

end OrderedInsert

end NeoGo.Sort
