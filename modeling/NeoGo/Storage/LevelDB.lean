import Mathlib.Data.List.Nodup
import NeoGo.Dao.Store

/-! # The LevelDB store and its pool of batches

`LevelDBStore` keeps the `leveldb.Batch` objects it has written for reuse. `Batch` hands out
the last batch of the pool, or a new one when the pool is empty; `PutBatch` writes a batch to
the database, resets it and returns it to the pool, whether or not the write succeeded. The
pool is guarded by the store's mutex; batches are objects shared by pointer.

The model keeps the batch objects in a heap, by number, and runs the store together with its
clients, goroutines interleaved in any order: a client takes a batch, adds puts and deletes to
it and hands it to `PutBatch`; anyone may `Put` and `Delete` directly. On every run
(`Reach.owned`) the pool's batches are distinct and empty, no batch is both pooled and held or
held by two clients, and each client's batch holds exactly the records that client added since
it took it. So `Batch` hands out an empty batch no other client holds (`batch_fresh`), and
`PutBatch` writes what its caller added, nothing more (`putBatch_writes`); when the write
fails, those records are lost, the batch being reset all the same.
-/

namespace NeoGo.Storage

open NeoGo.Dao (Bytes)

/-- Modelled from the spec: a record of a `leveldb.Batch`, a put or a delete. -/
inductive BatchOp where
  | put (key value : Bytes)
  | delete (key : Bytes)

/-- Modelled from the spec: the database behind `leveldb.DB`, as the value of each key. -/
abbrev DB := Bytes → Option Bytes

/-- Modelled from the spec: one record of a batch applied to the database. -/
def BatchOp.apply (db : DB) : BatchOp → DB
  | .put key value => Function.update db key (some value)
  | .delete key => Function.update db key none

/-- Modelled from the spec: `DB.Write` of a batch that succeeds, its records in order. -/
def writeBatch (db : DB) (ops : List BatchOp) : DB := ops.foldl BatchOp.apply db

/-- The store's errors. -/
inductive StoreError where
  /-- `ErrKeyNotFound`. -/
  | errKeyNotFound
  /-- The error of `DB.Write`. -/
  | errWrite

/-- `LevelDBStore`: the database, the pool `batches` by number, and the heap of batch objects
with the next free number. -/
structure LevelDBStore where
  db : DB
  batches : List Nat
  heap : Nat → List BatchOp
  next : Nat

namespace LevelDBStore

variable (s : LevelDBStore)

/-- `NewLevelDBStore` over a database holding `db`: no batch yet. -/
def new (db : DB) : LevelDBStore := ⟨db, [], fun _ => [], 0⟩

/-- `Get`: `leveldb.ErrNotFound` becomes `ErrKeyNotFound`. -/
def get (key : Bytes) : Except StoreError Bytes :=
  match s.db key with
  | some value => .ok value
  | none => .error .errKeyNotFound

def put (key value : Bytes) : LevelDBStore := { s with db := Function.update s.db key (some value) }

def delete (key : Bytes) : LevelDBStore := { s with db := Function.update s.db key none }

/-- `Batch`: the last batch of the pool, taken out of it, or `new(leveldb.Batch)` when the
pool is empty. -/
def batch : Nat × LevelDBStore :=
  match s.batches.getLast? with
  | none => (s.next, { s with heap := Function.update s.heap s.next [], next := s.next + 1 })
  | some b => (b, { s with batches := s.batches.dropLast })

/-- `Batch.Put` or `Batch.Delete` on the batch `b`: the record appended. -/
def addOp (b : Nat) (op : BatchOp) : LevelDBStore :=
  { s with heap := Function.update s.heap b (s.heap b ++ [op]) }

/-- `PutBatch` of the batch `b`, where `ok` is whether `DB.Write` succeeds: the batch written
or not, then reset and appended to the pool either way. -/
def putBatch (b : Nat) (ok : Bool) : Option StoreError × LevelDBStore :=
  (if ok then none else some .errWrite,
    { s with db := if ok then writeBatch s.db (s.heap b) else s.db,
             heap := Function.update s.heap b [],
             batches := s.batches ++ [b] })

end LevelDBStore

/-! ## The store and its clients -/

/-- The store and the batch each client holds. -/
structure Sys where
  store : LevelDBStore
  held : Nat → Option Nat

/-- What a client does, or a direct write. -/
inductive Action where
  | batch (c : Nat)
  | addOp (c : Nat) (op : BatchOp)
  | putBatch (c : Nat) (ok : Bool)
  | put (key value : Bytes)
  | delete (key : Bytes)

/-- One step: a client takes a batch when it holds none, adds records to the batch it holds,
and hands that batch to `PutBatch`, holding none after. -/
def Sys.step (s : Sys) : Action → Option Sys
  | .batch c =>
    if s.held c = none then some ⟨s.store.batch.2, Function.update s.held c (some s.store.batch.1)⟩
    else none
  | .addOp c op => (s.held c).map fun b => ⟨s.store.addOp b op, s.held⟩
  | .putBatch c ok => (s.held c).map fun b => ⟨(s.store.putBatch b ok).2, Function.update s.held c none⟩
  | .put key value => some ⟨s.store.put key value, s.held⟩
  | .delete key => some ⟨s.store.delete key, s.held⟩

/-- The runs from a new store over any database, by their actions. -/
inductive Reach : Sys → List Action → Prop
  | init (db : DB) : Reach ⟨LevelDBStore.new db, fun _ => none⟩ []
  | step {s s' : Sys} {tr : List Action} (a : Action) :
      Reach s tr → s.step a = some s' → Reach s' (tr ++ [a])

/-- The run of `as` from `s`; `none` when an action is not enabled. -/
def Sys.exec (s : Sys) : List Action → Option Sys
  | [] => some s
  | a :: as => (s.step a).bind fun s' => s'.exec as

theorem Reach.exec {s s' : Sys} {tr : List Action} (h : Reach s tr) :
    ∀ {as : List Action}, s.exec as = some s' → Reach s' (tr ++ as)
  | [], he => by
    cases he
    simpa using h
  | a :: as, he => by
    simp only [Sys.exec, Option.bind_eq_some] at he
    obtain ⟨s₁, h₁, h₂⟩ := he
    simpa using (Reach.step a h h₁).exec h₂

/-- What one action does to the records client `c` has added since it took its batch. -/
def addedStep (c : Nat) (acc : List BatchOp) : Action → List BatchOp
  | .batch c' => if c' = c then [] else acc
  | .addOp c' op => if c' = c then acc ++ [op] else acc
  | _ => acc

/-- The records client `c` added since it last took a batch. -/
def addedSince (c : Nat) (tr : List Action) : List BatchOp := tr.foldl (addedStep c) []

@[simp] theorem addedSince_append (c : Nat) (tr : List Action) (a : Action) :
    addedSince c (tr ++ [a]) = addedStep c (addedSince c tr) a := by
  simp [addedSince, List.foldl_append]

/-- The pool's ownership invariant. -/
structure Owned (s : Sys) (tr : List Action) : Prop where
  nodup : s.store.batches.Nodup
  pooled_empty : ∀ b ∈ s.store.batches, s.store.heap b = []
  pooled_bound : ∀ b ∈ s.store.batches, b < s.store.next
  held_bound : ∀ c b, s.held c = some b → b < s.store.next
  held_not_pooled : ∀ c b, s.held c = some b → b ∉ s.store.batches
  held_unique : ∀ c c' b, s.held c = some b → s.held c' = some b → c = c'
  held_added : ∀ c b, s.held c = some b → s.store.heap b = addedSince c tr

theorem update_held {held : Nat → Option Nat} {c c' b : Nat} {x : Option Nat}
    (hb : Function.update held c x c' = some b) :
    (c' = c ∧ x = some b) ∨ (c' ≠ c ∧ held c' = some b) := by
  by_cases hc' : c' = c
  · subst hc'
    exact .inl ⟨rfl, by simpa using hb⟩
  · rw [Function.update_noteq hc'] at hb
    exact .inr ⟨hc', hb⟩

namespace Owned

variable {s : Sys} {tr : List Action}

theorem db (h : Owned s tr) (db : DB) (a : Action) (ha : ∀ c, addedStep c (addedSince c tr) a = addedSince c tr) :
    Owned ⟨{ s.store with db := db }, s.held⟩ (tr ++ [a]) :=
  ⟨h.nodup, h.pooled_empty, h.pooled_bound, h.held_bound, h.held_not_pooled, h.held_unique,
    fun c b hb => by rw [addedSince_append, ha]; exact h.held_added c b hb⟩

/-- `Batch` on an empty pool: the new batch, numbered `next`, is empty and held by no one. -/
theorem batch_new (h : Owned s tr) {c : Nat} (hnil : s.store.batches = []) :
    Owned ⟨{ s.store with heap := Function.update s.store.heap s.store.next [],
                          next := s.store.next + 1 },
      Function.update s.held c (some s.store.next)⟩ (tr ++ [.batch c]) := by
  refine ⟨by simp [hnil], by simp [hnil], by simp [hnil], fun c' b hb => ?_, by simp [hnil],
    fun c₁ c₂ b h₁ h₂ => ?_, fun c' b hb => ?_⟩
  · rcases update_held hb with ⟨-, ⟨⟩⟩ | ⟨-, hb⟩
    · exact Nat.lt_succ_self _
    · exact Nat.lt_succ_of_lt (h.held_bound c' b hb)
  · rcases update_held h₁ with ⟨rfl, ⟨⟩⟩ | ⟨-, hb₁⟩ <;>
      rcases update_held h₂ with ⟨rfl, hb₂⟩ | ⟨-, hb₂⟩
    · rfl
    · exact absurd (h.held_bound c₂ _ hb₂) (Nat.lt_irrefl _)
    · exact absurd (h.held_bound c₁ b hb₁) (by cases hb₂; exact Nat.lt_irrefl _)
    · exact h.held_unique c₁ c₂ b hb₁ hb₂
  · rcases update_held hb with ⟨rfl, ⟨⟩⟩ | ⟨hc', hb⟩
    · simp [addedStep]
    · have hne : b ≠ s.store.next := Nat.ne_of_lt (h.held_bound c' b hb)
      simp only [Function.update_noteq hne, addedSince_append, addedStep, Ne.symm hc', if_false]
      exact h.held_added c' b hb

/-- `Batch` on a pool ending in `b`: `b` leaves the pool for the client. -/
theorem batch_pooled (h : Owned s tr) {c : Nat} (hc : s.held c = none) {L : List Nat} {b : Nat}
    (hl : s.store.batches = L ++ [b]) :
    Owned ⟨{ s.store with batches := L }, Function.update s.held c (some b)⟩ (tr ++ [.batch c]) := by
  have hb : b ∈ s.store.batches := hl ▸ List.mem_append_right _ (List.mem_singleton_self b)
  have hL : ∀ x ∈ L, x ∈ s.store.batches := fun x hx => hl ▸ List.mem_append_left _ hx
  obtain ⟨hndL, -, hdisj⟩ := List.nodup_append.mp (hl ▸ h.nodup)
  have hbL : b ∉ L := fun hbL => hdisj hbL (List.mem_singleton_self b)
  refine ⟨hndL, fun x hx => h.pooled_empty x (hL x hx), fun x hx => h.pooled_bound x (hL x hx),
    fun c' x hx => ?_, fun c' x hx => ?_, fun c₁ c₂ x h₁ h₂ => ?_, fun c' x hx => ?_⟩
  · rcases update_held hx with ⟨-, ⟨⟩⟩ | ⟨-, hx⟩
    · exact h.pooled_bound b hb
    · exact h.held_bound c' x hx
  · rcases update_held hx with ⟨-, ⟨⟩⟩ | ⟨-, hx⟩
    · exact hbL
    · exact fun hxL => h.held_not_pooled c' x hx (hL x hxL)
  · rcases update_held h₁ with ⟨rfl, ⟨⟩⟩ | ⟨-, hx₁⟩ <;>
      rcases update_held h₂ with ⟨rfl, hx₂⟩ | ⟨-, hx₂⟩
    · rfl
    · exact absurd hb (h.held_not_pooled c₂ _ hx₂)
    · cases hx₂; exact absurd hb (h.held_not_pooled c₁ _ hx₁)
    · exact h.held_unique c₁ c₂ x hx₁ hx₂
  · rcases update_held hx with ⟨rfl, ⟨⟩⟩ | ⟨hc', hx⟩
    · simp [addedStep, h.pooled_empty b hb]
    · simp only [addedSince_append, addedStep, Ne.symm hc', if_false]
      exact h.held_added c' x hx

/-- `Batch.Put` or `Batch.Delete` by the client holding `b`. -/
theorem addOp (h : Owned s tr) {c b : Nat} (hc : s.held c = some b) (op : BatchOp) :
    Owned ⟨s.store.addOp b op, s.held⟩ (tr ++ [.addOp c op]) := by
  have hpool : ∀ x ∈ s.store.batches, x ≠ b := fun x hx e => h.held_not_pooled c b hc (e ▸ hx)
  refine ⟨h.nodup, fun x hx => ?_, h.pooled_bound, h.held_bound, h.held_not_pooled,
    h.held_unique, fun c' x hx => ?_⟩
  · simp only [LevelDBStore.addOp, Function.update_noteq (hpool x hx)]
    exact h.pooled_empty x hx
  · by_cases hxb : x = b
    · subst hxb
      obtain rfl := h.held_unique c' c x hx hc
      simp [LevelDBStore.addOp, addedStep, h.held_added c' x hx]
    · have hc' : c ≠ c' := fun e => hxb (Option.some.inj ((e ▸ hx).symm.trans hc))
      simp [LevelDBStore.addOp, Function.update_noteq hxb, addedStep, hc', h.held_added c' x hx]

/-- `PutBatch` by the client holding `b`: `b` goes back to the pool, empty. -/
theorem putBatch (h : Owned s tr) {c b : Nat} (hc : s.held c = some b) (ok : Bool) :
    Owned ⟨(s.store.putBatch b ok).2, Function.update s.held c none⟩ (tr ++ [.putBatch c ok]) := by
  have hbnot := h.held_not_pooled c b hc
  have hother : ∀ c' x, Function.update s.held c none c' = some x →
      c' ≠ c ∧ s.held c' = some x ∧ x ≠ b := fun c' x hx => by
    rcases update_held hx with ⟨-, ⟨⟩⟩ | ⟨hc', hx⟩
    exact ⟨hc', hx, fun e => hc' (h.held_unique c' c x hx (e ▸ hc))⟩
  refine ⟨List.nodup_append.mpr ⟨h.nodup, List.nodup_singleton b,
      fun x hx hxb => hbnot (List.mem_singleton.mp hxb ▸ hx)⟩, fun x hx => ?_, fun x hx => ?_,
    fun c' x hx => h.held_bound c' x (hother c' x hx).2.1, fun c' x hx => ?_,
    fun c₁ c₂ x h₁ h₂ => h.held_unique c₁ c₂ x (hother c₁ x h₁).2.1 (hother c₂ x h₂).2.1,
    fun c' x hx => ?_⟩
  · by_cases hxb : x = b
    · subst hxb; simp [LevelDBStore.putBatch]
    · have hx' : x ∈ s.store.batches := by simpa [LevelDBStore.putBatch, hxb] using hx
      simp only [LevelDBStore.putBatch, Function.update_noteq hxb]
      exact h.pooled_empty x hx'
  · rcases List.mem_append.mp hx with hx | hx
    · exact h.pooled_bound x hx
    · exact List.mem_singleton.mp hx ▸ h.held_bound c b hc
  · obtain ⟨-, hx, hxb⟩ := hother c' x hx
    simpa [LevelDBStore.putBatch, hxb] using h.held_not_pooled c' x hx
  · obtain ⟨hc', hx, hxb⟩ := hother c' x hx
    simp only [LevelDBStore.putBatch, Function.update_noteq hxb, addedSince_append, addedStep]
    exact h.held_added c' x hx

/-- **One step keeps the pool's ownership invariant.** -/
theorem step (h : Owned s tr) {a : Action} {s' : Sys} (hs : s.step a = some s') :
    Owned s' (tr ++ [a]) := by
  cases a with
  | batch c =>
    simp only [Sys.step] at hs
    split at hs
    · cases hs
      rename_i hc
      unfold LevelDBStore.batch
      cases hl : s.store.batches.getLast? with
      | none => exact h.batch_new (List.getLast?_eq_none_iff.mp hl)
      | some b =>
        obtain ⟨L, hL⟩ := List.getLast?_eq_some_iff.mp hl
        have hdrop : s.store.batches.dropLast = L := by rw [hL, List.dropLast_concat]
        simpa only [hdrop] using h.batch_pooled hc hL
    · cases hs
  | addOp c op =>
    simp only [Sys.step, Option.map_eq_some'] at hs
    obtain ⟨b, hb, rfl⟩ := hs
    exact h.addOp hb op
  | putBatch c ok =>
    simp only [Sys.step, Option.map_eq_some'] at hs
    obtain ⟨b, hb, rfl⟩ := hs
    exact h.putBatch hb ok
  | put key value =>
    cases hs
    exact h.db _ _ fun _ => rfl
  | delete key =>
    cases hs
    exact h.db _ _ fun _ => rfl

end Owned

/-- **Every run keeps the pool's ownership invariant.** -/
theorem Reach.owned {s : Sys} {tr : List Action} (h : Reach s tr) : Owned s tr := by
  induction h with
  | init db => exact ⟨List.nodup_nil, by simp [LevelDBStore.new], by simp [LevelDBStore.new],
      fun _ _ h => Option.noConfusion h, fun _ _ h => Option.noConfusion h,
      fun _ _ _ h => Option.noConfusion h, fun _ _ h => Option.noConfusion h⟩
  | step a _ hs ih => exact ih.step hs

/-- A new store over the empty database. -/
def emptySys : Sys := ⟨LevelDBStore.new fun _ => none, fun _ => none⟩

/-- Client 0 takes a batch and puts a record into it. -/
def firstRecord : List Action := [.batch 0, .addOp 0 (.put [1] [2])]

/-- Clients 0 and 1 take batches and add records in turn; client 0 writes its batch, and
client 2 takes that batch back from the pool and adds a record, as does client 1. -/
def interleavedRun : List Action :=
  [.batch 0, .batch 1, .addOp 0 (.put [1] [1]), .addOp 1 (.put [2] [2]), .addOp 0 (.delete [3]),
    .putBatch 0 true, .batch 2, .addOp 2 (.put [4] [4]), .addOp 1 (.put [5] [5])]

/-- The invariant after `interleavedRun`: client 2 holds the batch client 0 wrote, client 1
still holds its own. -/
theorem owned_on_interleavedRun :
    ∃ s, emptySys.exec interleavedRun = some s ∧ Reach s interleavedRun ∧
      s.held 1 = some 1 ∧ s.held 2 = some 0 ∧ Owned s interleavedRun :=
  ⟨_, rfl, @Reach.exec _ _ [] (Reach.init fun _ => none) _ rfl, rfl, rfl,
    Reach.owned (@Reach.exec _ _ [] (Reach.init fun _ => none) interleavedRun rfl)⟩

/-- **`Batch` hands out an empty batch that no other client holds**, on every run. -/
theorem batch_fresh {s s' : Sys} {tr : List Action} (h : Reach s tr) {c : Nat}
    (hs : s.step (.batch c) = some s') :
    ∃ b, s'.held c = some b ∧ s'.store.heap b = [] ∧ ∀ c', s'.held c' = some b → c' = c := by
  have hown := (Reach.step _ h hs).owned
  simp only [Sys.step] at hs
  split at hs
  · cases hs
    refine ⟨_, Function.update_same _ _ _, ?_, fun c' hc' => hown.held_unique c' c _ hc'
      (Function.update_same _ _ _)⟩
    rw [hown.held_added c _ (Function.update_same _ _ _)]
    simp [addedStep]
  · cases hs

/-- After client 0 has written its batch, client 1 is handed the same batch, empty. -/
theorem batch_fresh_on_reuse :
    ∃ s, emptySys.exec (firstRecord ++ [.putBatch 0 true]) = some s ∧
      Reach s (firstRecord ++ [.putBatch 0 true]) ∧ ∃ s', s.step (.batch 1) = some s' ∧
        s'.held 1 = some 0 ∧
        ∃ b, s'.held 1 = some b ∧ s'.store.heap b = [] ∧ ∀ c', s'.held c' = some b → c' = 1 :=
  ⟨_, rfl, @Reach.exec _ _ [] (Reach.init fun _ => none) _ rfl, _, rfl, rfl,
    batch_fresh (@Reach.exec _ _ [] (Reach.init fun _ => none)
      (firstRecord ++ [Action.putBatch 0 true]) rfl) rfl⟩

/-- **`PutBatch` writes what its caller added since it took the batch**, on every run: the
records it added, in order, when the write succeeds, and nothing when it fails; the batch is
reset and returned to the pool either way. -/
theorem putBatch_writes {s : Sys} {tr : List Action} (h : Reach s tr) {c b : Nat}
    (hc : s.held c = some b) (ok : Bool) :
    (s.store.putBatch b ok).2.db = (if ok then writeBatch s.store.db (addedSince c tr) else s.store.db) ∧
      (s.store.putBatch b ok).2.heap b = [] ∧ b ∈ (s.store.putBatch b ok).2.batches := by
  simp [LevelDBStore.putBatch, h.owned.held_added c b hc]

/-- After `interleavedRun`, client 1's batch writes its two records only, and client 2's, the
batch client 0 wrote before, its one record only. -/
theorem putBatch_writes_on_interleavedRun :
    ∃ s, emptySys.exec interleavedRun = some s ∧ Reach s interleavedRun ∧
      addedSince 1 interleavedRun = [.put [2] [2], .put [5] [5]] ∧
      addedSince 2 interleavedRun = [.put [4] [4]] ∧
      (∀ ok, ((s.store.putBatch 1 ok).2.db =
          (if ok then writeBatch s.store.db (addedSince 1 interleavedRun) else s.store.db) ∧
        (s.store.putBatch 1 ok).2.heap 1 = [] ∧ 1 ∈ (s.store.putBatch 1 ok).2.batches)) ∧
      ∀ ok, ((s.store.putBatch 0 ok).2.db =
          (if ok then writeBatch s.store.db (addedSince 2 interleavedRun) else s.store.db) ∧
        (s.store.putBatch 0 ok).2.heap 0 = [] ∧ 0 ∈ (s.store.putBatch 0 ok).2.batches) :=
  have hr := @Reach.exec _ _ [] (Reach.init fun _ => none) interleavedRun rfl
  ⟨_, rfl, hr, rfl, rfl, putBatch_writes hr (c := 1) rfl, putBatch_writes hr (c := 2) rfl⟩

end NeoGo.Storage
