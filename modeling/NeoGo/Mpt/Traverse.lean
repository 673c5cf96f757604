import Mathlib.Data.Fintype.Order
import Mathlib.Data.List.FinRange
import NeoGo.Mpt.Proof

/-! # Walking the trie: `Traverse`

`traverse` visits the trie in pre-order. A hash node is resolved from the store and the node
stored under its hash is visited in its place; every other node is handed to `process` with
its encoding before its children are visited, a branch's in index order; the walk stops at
the first node `process` answers `true` for (`errStop`) or at the first error of the store.

Go's nodes are pointers: `n.Children[i] = r` and `n.next = r` change in place the node the
caller holds, so what the walk did below a resolved node stays in the trie even when the
call returns an error, while a hash node's resolution enters the trie only when the caller
assigns what the call returned. `traverse` returns both: the node in the caller's slot as the
call left it, and what the call returned.

`process` is a Go closure; `σ` is the state it keeps. `Preorder` is the specification: the
visits of the trie with every resolvable hash node replaced by its stored node, an
unresolvable one by its error (or by nothing when the error is ignored), and an empty one by
nothing. With enough fuel, the walk is `runVisits` over that sequence (`traverse_runVisits`):
the same calls of `process` in the same order, and the same ending.
-/

namespace NeoGo.Mpt

variable {H B σ : Type}

/-- What `traverse` returns: the node for the caller's slot with `nil`, or with `errStop`, or
an error (with a node no caller reads). -/
inductive Outcome (H : Type) where
  | done (r : Node H)
  | stop (r : Node H)
  | fail (e : MptError)

/-- How a walk ended: it finished, `process` halted it, or the store failed. -/
inductive Ending where
  | finished
  | halted
  | failed (e : MptError)
  deriving DecidableEq

/-- How a call with this outcome ended. -/
def Outcome.ending : Outcome H → Ending
  | .done _ => .finished
  | .stop _ => .halted
  | .fail e => .failed e

/-- What the caller's slot holds after the call: the node returned, or, after an error, what
the call left there. -/
def Outcome.assign : Outcome H → Node H → Node H
  | .done r, _ => r
  | .stop r, _ => r
  | .fail _, slot => slot

/-- The outcome of a call that ended so, returning `n`. -/
def Ending.outcome : Ending → Node H → Outcome H
  | .finished, n => .done n
  | .halted, n => .stop n
  | .failed e, _ => .fail e

/-- The error `Traverse` returns for a walk that ended so: `errStop` is none. -/
def Ending.error : Ending → Option MptError
  | .failed e => some e
  | _ => none

@[simp] theorem Ending.ending_outcome (e : Ending) (n : Node H) : (e.outcome n).ending = e := by
  cases e <;> rfl

/-! ## The code -/

section Code

variable (c : Codec H B) (store : H → Option B) (process : σ → Node H → B → σ × Bool)
  (ignoreStorageErr : Bool)

/-- The loop of `traverse` over a branch's children, from the indices `is` on, given the call
one level down: each child's result is assigned to its slot; `errStop` is assigned too and
ends the loop; an error ends it, the child's slot left as the call left it. -/
def traverseChildren (tr : Node H → σ → Node H × Outcome H × σ) :
    List (Fin 17) → (Fin 17 → Node H) → σ → (Fin 17 → Node H) × Ending × σ
  | [], children, s => (children, .finished, s)
  | i :: is, children, s =>
    let (slot, out, s) := tr (children i) s
    let children := Function.update children i (out.assign slot)
    match out.ending with
    | .finished => traverseChildren tr is children s
    | e => (children, e, s)

/-- `Trie.traverse`: the node in the caller's slot as the call leaves it, what the call
returns, and the closure's state. It takes one unit of fuel per call, a bound the source does
not have. -/
def traverse : Nat → Node H → σ → Node H × Outcome H × σ
  | 0, curr, s => (curr, .fail .fuelExhausted, s)
  | _ + 1, .hash none, s => (.hash none, .done (.hash none), s)
  | fuel + 1, .hash (some h), s =>
    match getFromStore c store h with
    | .error e =>
      (.hash (some h),
        if ignoreStorageErr && e == .errKeyNotFound then .done (.hash (some h)) else .fail e, s)
    | .ok r => (.hash (some h), (traverse fuel r s).2)
  | _ + 1, .leaf value, s =>
    let (s, halt) := process s (.leaf value) (c.encode (.leaf value))
    (.leaf value, if halt then .stop (.leaf value) else .done (.leaf value), s)
  | fuel + 1, .branch children, s =>
    let (s, halt) := process s (.branch children) (c.encode (.branch children))
    if halt then (.branch children, .stop (.branch children), s) else
      let (children, e, s) := traverseChildren (traverse fuel) (List.finRange 17) children s
      (.branch children, e.outcome (.branch children), s)
  | fuel + 1, .extension key next, s =>
    let (s, halt) := process s (.extension key next) (c.encode (.extension key next))
    if halt then (.extension key next, .stop (.extension key next), s) else
      let (slot, out, s) := traverse fuel next s
      let n := Node.extension key (out.assign slot)
      (n, out.ending.outcome n, s)

/-- `Trie.Traverse`: the error it returns, the trie after it, and the closure's state. The
root is assigned what the walk returned unless the walk failed; it changed in place either
way. -/
def Trie.Traverse (t : Trie H B) (fuel : Nat) (s : σ) : Option MptError × Trie H B × σ :=
  let (slot, out, s) := traverse c t.store process ignoreStorageErr fuel t.root s
  (out.ending.error, { t with root := out.assign slot }, s)

end Code

/-! ## The pre-order of the resolved trie -/

/-- A visit of the walk: a node handed to `process`, or a hash node the store fails on. -/
inductive Visit (H : Type) where
  | node (n : Node H)
  | fail (e : MptError)

/-- The visits of the trie below a node, in pre-order: a resolvable hash node's stored node in
its place, an unresolvable one by its error or, when that is ignored, by nothing, an empty
one by nothing, and every other node before its children, a branch's in index order. -/
inductive Preorder (c : Codec H B) (store : H → Option B) (ignoreStorageErr : Bool) :
    Node H → List (Visit H) → Prop
  | empty : Preorder c store ignoreStorageErr (.hash none) []
  | unresolved (h : H) (e : MptError) : getFromStore c store h = .error e →
      Preorder c store ignoreStorageErr (.hash (some h))
        (if ignoreStorageErr && e == .errKeyNotFound then [] else [.fail e])
  | resolved (h : H) (n : Node H) (vs : List (Visit H)) : getFromStore c store h = .ok n →
      Preorder c store ignoreStorageErr n vs →
      Preorder c store ignoreStorageErr (.hash (some h)) vs
  | leaf (value : List UInt8) :
      Preorder c store ignoreStorageErr (.leaf value) [.node (.leaf value)]
  | branch (children : Fin 17 → Node H) (vs : Fin 17 → List (Visit H)) :
      (∀ i, Preorder c store ignoreStorageErr (children i) (vs i)) →
      Preorder c store ignoreStorageErr (.branch children)
        (.node (.branch children) :: (List.finRange 17).flatMap vs)
  | extension (key : List (Fin 16)) (next : Node H) (vs : List (Visit H)) :
      Preorder c store ignoreStorageErr next vs →
      Preorder c store ignoreStorageErr (.extension key next) (.node (.extension key next) :: vs)

/-- `process` run over the visits in order, each node with its encoding, until it halts or a
visit fails: the closure's state then, and how the run ended. -/
def runVisits (c : Codec H B) (process : σ → Node H → B → σ × Bool) :
    List (Visit H) → σ → σ × Ending
  | [], s => (s, .finished)
  | .node n :: vs, s =>
    let (s, halt) := process s n (c.encode n)
    if halt then (s, .halted) else runVisits c process vs s
  | .fail e :: _, s => (s, .failed e)

section Spec

variable {c : Codec H B} {store : H → Option B} (process : σ → Node H → B → σ × Bool)
  {ignoreStorageErr : Bool}

/-- A run over two stretches of visits runs the second only when the first finished. -/
theorem runVisits_append (l₁ l₂ : List (Visit H)) (s : σ) :
    runVisits c process (l₁ ++ l₂) s =
      match runVisits c process l₁ s with
      | (s, .finished) => runVisits c process l₂ s
      | r => r := by
  induction l₁ generalizing s with
  | nil => rfl
  | cons v l₁ ih =>
    cases v with
    | node n =>
      rcases hp : process s n (c.encode n) with ⟨s', _ | _⟩
      · simpa [runVisits, hp] using ih s'
      · simp [runVisits, hp]
    | fail e => rfl

/-- **The loop over a branch's children runs the children's visits one after another**, when
each call of `tr` on a child runs that child's visits. -/
theorem traverseChildren_runVisits {tr : Node H → σ → Node H × Outcome H × σ}
    {children : Fin 17 → Node H} {vs : Fin 17 → List (Visit H)}
    (htr : ∀ i s, ((tr (children i) s).2.2, (tr (children i) s).2.1.ending) =
      runVisits c process (vs i) s) :
    ∀ (is : List (Fin 17)), is.Nodup → ∀ cs, (∀ i ∈ is, cs i = children i) → ∀ s,
      ((traverseChildren tr is cs s).2.2, (traverseChildren tr is cs s).2.1) =
        runVisits c process (is.flatMap vs) s
  | [], _, _, _, _ => rfl
  | i :: is, hnd, cs, hcs, s => by
    obtain ⟨hi, hnd⟩ := List.nodup_cons.mp hnd
    rcases htri : tr (children i) s with ⟨slot, out, s'⟩
    have hrun := htr i s
    rw [htri] at hrun
    rw [List.flatMap_cons, runVisits_append, ← hrun]
    simp only [traverseChildren, hcs i (List.mem_cons_self _ _), htri]
    cases hout : out.ending with
    | finished =>
      refine traverseChildren_runVisits htr is hnd _ (fun j hj => ?_) s'
      rw [Function.update_noteq (show j ≠ i from fun he => hi (he ▸ hj))]
      exact hcs j (List.mem_cons_of_mem _ hj)
    | halted | failed _ => rfl

/-- **With enough fuel, `traverse` runs `process` over the node's pre-order visits**: the
closure's state after the walk and how the walk ended are those of `runVisits`. -/
theorem traverse_runVisits {n : Node H} {vs : List (Visit H)}
    (hp : Preorder c store ignoreStorageErr n vs) :
    ∃ N, ∀ fuel, N ≤ fuel → ∀ s,
      ((traverse c store process ignoreStorageErr fuel n s).2.2,
        (traverse c store process ignoreStorageErr fuel n s).2.1.ending) =
          runVisits c process vs s := by
  induction hp with
  | empty => exact ⟨0 + 1, fuel_succ fun _ _ _ => rfl⟩
  | unresolved h e hget =>
    refine ⟨0 + 1, fuel_succ fun _ _ s => ?_⟩
    simp only [traverse, hget]
    split <;> rfl
  | resolved h n vs hget _ ih =>
    obtain ⟨N, hN⟩ := ih
    exact ⟨N + 1, fuel_succ fun fuel hf s => by simpa only [traverse, hget] using hN fuel hf s⟩
  | leaf value =>
    refine ⟨0 + 1, fuel_succ fun _ _ s => ?_⟩
    rcases hpr : process s (.leaf value) (c.encode (.leaf value)) with ⟨s', _ | _⟩ <;>
      simp [traverse, runVisits, hpr, Outcome.ending]
  | branch children vs _ ih =>
    choose Ns hNs using ih
    obtain ⟨M, hM⟩ := Finite.exists_le Ns
    refine ⟨M + 1, fuel_succ fun fuel hf s => ?_⟩
    rcases hpr : process s (.branch children) (c.encode (.branch children)) with ⟨s', _ | _⟩
    · rw [traverse, runVisits, hpr]
      simp only [Bool.false_eq_true, if_false, Ending.ending_outcome]
      exact traverseChildren_runVisits process (fun i => hNs i fuel ((hM i).trans hf)) _
        (List.nodup_finRange 17) children (fun _ _ => rfl) s'
    · rw [traverse, runVisits, hpr]
      rfl
  | extension key next vs _ ih =>
    obtain ⟨N, hN⟩ := ih
    refine ⟨N + 1, fuel_succ fun fuel hf s => ?_⟩
    rcases hpr : process s (.extension key next) (c.encode (.extension key next)) with
      ⟨s', _ | _⟩
    · simpa [traverse, runVisits, hpr] using hN fuel hf s'
    · simp [traverse, runVisits, hpr, Outcome.ending]

end Spec

/-- **`Traverse` calls `process` on the prefix of the trie's pre-order visits up to the halt.**
For a trie whose resolved form is finite, with enough fuel, the closure's state after
`Traverse` is its state after `process` has been called, in order, on every node visited
before the walk halts or fails, each with its encoding; `Traverse` returns an error exactly
when a visit of the store's failure comes before any halt, and then that error. -/
theorem traverse_visits_preorder {c : Codec H B} {t : Trie H B} {ignoreStorageErr : Bool}
    {vs : List (Visit H)} (hp : Preorder c t.store ignoreStorageErr t.root vs)
    (process : σ → Node H → B → σ × Bool) :
    ∃ N, ∀ fuel, N ≤ fuel → ∀ s,
      (t.Traverse c process ignoreStorageErr fuel s).2.2 = (runVisits c process vs s).1 ∧
        (t.Traverse c process ignoreStorageErr fuel s).1 = (runVisits c process vs s).2.error := by
  obtain ⟨N, hN⟩ := traverse_runVisits process hp
  refine ⟨N, fun fuel hf s => ?_⟩
  rw [← hN fuel hf s]
  exact ⟨rfl, rfl⟩

/-- The visits below the children of `hiRoot`: the extension and the leaf below child `a`. -/
def hiChildVisits (i : Fin 17) : List (Visit Nat) :=
  if i = 10 then [.node hiExt, .node hiLeaf] else []

/-- The pre-order visits of `hiTrie`. -/
def hiVisits : List (Visit Nat) := .node hiRoot :: (List.finRange 17).flatMap hiChildVisits

theorem hiTrie_preorder : Preorder toyCodec hiTrie.store false hiTrie.root hiVisits := by
  refine .branch _ _ fun i => ?_
  unfold hiRootChildren hiChildVisits
  split
  · exact .resolved _ hiExt _ rfl (.extension _ _ _ (.resolved _ hiLeaf _ rfl (.leaf _)))
  · exact .empty

/-- A closure that counts its calls and halts on the second. -/
def haltOnSecond (k : Nat) (_ _ : Node Nat) : Nat × Bool := (k + 1, k == 1)

/-- `Traverse` on `hiTrie` with a closure that halts on its second call, at the extension. -/
theorem hiTrie_traverse_visits :
    Preorder toyCodec hiTrie.store false hiTrie.root hiVisits ∧
      ∃ N, ∀ fuel, N ≤ fuel → ∀ s,
        (hiTrie.Traverse toyCodec haltOnSecond false fuel s).2.2 =
            (runVisits toyCodec haltOnSecond hiVisits s).1 ∧
          (hiTrie.Traverse toyCodec haltOnSecond false fuel s).1 =
            (runVisits toyCodec haltOnSecond hiVisits s).2.error :=
  ⟨hiTrie_preorder, traverse_visits_preorder hiTrie_preorder _⟩

example : (hiTrie.Traverse toyCodec haltOnSecond false 8 0).2.2 = 2 ∧
    (hiTrie.Traverse toyCodec haltOnSecond false 8 0).1 = none := by decide

end NeoGo.Mpt
