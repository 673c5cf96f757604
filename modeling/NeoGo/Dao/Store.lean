import Mathlib.Logic.Function.Basic

/-! # Stores and the heap of shared objects

A DAO (`pkg/core/dao`) reads and writes through a chain of key-value stores: at the top the
`MemCachedStore` layer the DAO owns, below it the stores it was wrapped around, at the
bottom the backing store. Go shares these stores, and the object caches of `Cached`, by
pointer, so they live here in a heap of numbered objects. The DAOs themselves are values
(`NeoGo.Dao.DAO`): every `GetWrapped` and `NewCached` makes new DAO objects, and only their
stores and caches are shared.

`MemCachedStore` is not among the sources. Its layer is modelled from the spec as a map of
puts and deletions, read before falling through to the store below, and flushed into that
store by `Persist`, which returns the number of entries written. The backing store has the
same representation, a deletion being an entry that reads as absent.

`AgreeBelow n` says that two heaps hold the same objects below `n`; allocation and writes to
objects from `n` on keep it, and everything a DAO built below `n` reads depends only on them.
-/

namespace NeoGo.Dao

/-- A byte string. -/
abbrev Bytes := List UInt8

/-- A Go map: its entries, one per key, the newest first. -/
abbrev GoMap (K V : Type) := List (K × V)

namespace GoMap

variable {K V : Type} [DecidableEq K]

/-- `v, ok := m[k]`. -/
def get (m : GoMap K V) (k : K) : Option V := (m.find? fun e => e.1 = k).map Prod.snd

/-- `m[k] = v`. -/
def set (m : GoMap K V) (k : K) (v : V) : GoMap K V := (k, v) :: m.filter fun e => e.1 ≠ k

/-- `delete(m, k)`. -/
def delete (m : GoMap K V) (k : K) : GoMap K V := m.filter fun e => e.1 ≠ k

@[simp] theorem get_nil (k : K) : get ([] : GoMap K V) k = none := rfl

@[simp] theorem get_set_self (m : GoMap K V) (k : K) (v : V) : (m.set k v).get k = some v := by
  simp [get, set]

theorem get_filter_ne (m : GoMap K V) {k k' : K} (h : k ≠ k') :
    get (m.filter fun e => e.1 ≠ k) k' = m.get k' := by
  induction m with
  | nil => rfl
  | cons e m ih =>
    by_cases he : e.1 = k
    · have : e.1 ≠ k' := he ▸ h
      simp_all [get, List.filter_cons]
    · by_cases he' : e.1 = k' <;> simp_all [get, List.filter_cons]

@[simp] theorem get_set_ne (m : GoMap K V) {k k' : K} (v : V) (h : k ≠ k') :
    (m.set k v).get k' = m.get k' := by
  simp only [set, get, List.find?_cons, h, decide_False]
  exact get_filter_ne m h

end GoMap

/-- The objects Go shares by pointer: stores, and the four object caches of `Cached`
(`accounts`, `contracts`, `balances` and `transfers`), each by number. Accounts and contracts
are keyed by the script hash's bytes; a contract entry may be Go's `nil`. -/
structure Heap (A C N : Type) where
  stores : Nat → GoMap Bytes (Option Bytes)
  accounts : Nat → GoMap Bytes A
  contracts : Nat → GoMap Bytes (Option C)
  balances : Nat → GoMap Bytes N
  transfers : Nat → GoMap Bytes (GoMap UInt32 Bytes)
  next : Nat

namespace Heap

variable {A C N : Type} (h : Heap A C N)

/-- Modelled from the spec: `MemCachedStore.Get` on the store whose layers, top down, are
`chain`: the first layer holding the key answers, a deletion answering `ErrKeyNotFound`
(`none`). -/
def get : List Nat → Bytes → Option Bytes
  | [], _ => none
  | i :: chain, k =>
    match (h.stores i).get k with
    | some e => e
    | none => get chain k

/-- Modelled from the spec: `Put` or `Delete` (`e = none`) on the store numbered `i`. -/
def write (i : Nat) (k : Bytes) (e : Option Bytes) : Heap A C N :=
  { h with stores := Function.update h.stores i ((h.stores i).set k e) }

/-- `m[k] = a` on the accounts cache numbered `i`. -/
def setAccount (i : Nat) (k : Bytes) (a : A) : Heap A C N :=
  { h with accounts := Function.update h.accounts i ((h.accounts i).set k a) }

/-- `m[k] = cs` on the contracts cache numbered `i` (`cs = none` is Go's `nil`). -/
def setContract (i : Nat) (k : Bytes) (cs : Option C) : Heap A C N :=
  { h with contracts := Function.update h.contracts i ((h.contracts i).set k cs) }

/-- `m[k] = bs` on the balances cache numbered `i`. -/
def setBalances (i : Nat) (k : Bytes) (bs : N) : Heap A C N :=
  { h with balances := Function.update h.balances i ((h.balances i).set k bs) }

/-- `m[k] = ts` on the transfers cache numbered `i`. -/
def setTransfers (i : Nat) (k : Bytes) (ts : GoMap UInt32 Bytes) : Heap A C N :=
  { h with transfers := Function.update h.transfers i ((h.transfers i).set k ts) }

/-- Modelled from the spec: `MemCachedStore.Persist` of layer `i` into the store `ps` below it:
every entry written, the layer emptied, the number of entries returned. -/
def flush (i ps : Nat) : Nat × Heap A C N :=
  let mem := h.stores i
  let below := mem.foldr (fun e m => m.set e.1 e.2) (h.stores ps)
  (mem.length,
    { h with stores := Function.update (Function.update h.stores ps below) i [] })

theorem get_write_ne (i : Nat) {k k' : Bytes} (e : Option Bytes) (hk : k ≠ k') :
    ∀ chain, (h.write i k e).get chain k' = h.get chain k'
  | [] => rfl
  | j :: chain => by
    have hj : ((h.write i k e).stores j).get k' = (h.stores j).get k' := by
      by_cases hji : j = i
      · subst hji; simp [write, hk]
      · simp [write, Function.update_noteq hji]
    simp only [get, hj, get_write_ne i e hk chain]

@[simp] theorem get_write_self (i : Nat) (k : Bytes) (e : Option Bytes) (chain : List Nat) :
    (h.write i k e).get (i :: chain) k = e := by
  simp [get, write]

/-- Modelled from the spec: `storage.NewMemCachedStore`, a new, empty store. -/
def newStore : Nat × Heap A C N :=
  (h.next, { h with stores := Function.update h.stores h.next [], next := h.next + 1 })

/-- Four new, empty object caches (`NewCached`), numbered `next`. -/
def newCaches : Nat × Heap A C N :=
  (h.next,
    { h with
      accounts := Function.update h.accounts h.next []
      contracts := Function.update h.contracts h.next []
      balances := Function.update h.balances h.next []
      transfers := Function.update h.transfers h.next []
      next := h.next + 1 })

end Heap

/-! ## Heaps that agree below a bound -/

/-- Two tables of objects agree below `n`. -/
def EqBelow {α : Type} (n : Nat) (f g : Nat → α) : Prop := ∀ i < n, f i = g i

namespace EqBelow

variable {α : Type} {n : Nat} {f g : Nat → α}

theorem update (e : EqBelow n f g) (i : Nat) (t : α → α) :
    EqBelow n (Function.update f i (t (f i))) (Function.update g i (t (g i))) := by
  intro j hj
  by_cases hji : j = i
  · subst hji; simp [e j hj]
  · simp [Function.update_noteq hji, e j hj]

theorem update_above (f : Nat → α) {i : Nat} (hi : n ≤ i) (v : α) :
    EqBelow n (Function.update f i v) f := fun j hj => by
  simp [Function.update_noteq (show j ≠ i by omega)]

end EqBelow

/-- The two heaps hold the same objects below `n`. -/
structure AgreeBelow {A C N : Type} (n : Nat) (h h' : Heap A C N) : Prop where
  stores : EqBelow n h.stores h'.stores
  accounts : EqBelow n h.accounts h'.accounts
  contracts : EqBelow n h.contracts h'.contracts
  balances : EqBelow n h.balances h'.balances
  transfers : EqBelow n h.transfers h'.transfers

namespace AgreeBelow

variable {A C N : Type} {n : Nat} {h h' h'' : Heap A C N}

@[refl] theorem refl (h : Heap A C N) : AgreeBelow n h h :=
  ⟨fun _ _ => rfl, fun _ _ => rfl, fun _ _ => rfl, fun _ _ => rfl, fun _ _ => rfl⟩

@[symm] theorem symm (e : AgreeBelow n h h') : AgreeBelow n h' h :=
  ⟨fun i hi => (e.stores i hi).symm, fun i hi => (e.accounts i hi).symm,
    fun i hi => (e.contracts i hi).symm, fun i hi => (e.balances i hi).symm,
    fun i hi => (e.transfers i hi).symm⟩

@[trans] theorem trans (e : AgreeBelow n h h') (e' : AgreeBelow n h' h'') : AgreeBelow n h h'' :=
  ⟨fun i hi => (e.stores i hi).trans (e'.stores i hi),
    fun i hi => (e.accounts i hi).trans (e'.accounts i hi),
    fun i hi => (e.contracts i hi).trans (e'.contracts i hi),
    fun i hi => (e.balances i hi).trans (e'.balances i hi),
    fun i hi => (e.transfers i hi).trans (e'.transfers i hi)⟩

theorem get (e : AgreeBelow n h h') :
    ∀ {chain : List Nat}, (∀ i ∈ chain, i < n) → ∀ k, h.get chain k = h'.get chain k
  | [], _, _ => rfl
  | i :: chain, hc, k => by
    simp only [Heap.get, e.stores i (hc i (List.mem_cons_self _ _)),
      e.get (fun j hj => hc j (List.mem_cons_of_mem _ hj)) k]

theorem write (e : AgreeBelow n h h') (i : Nat) (k : Bytes) (v : Option Bytes) :
    AgreeBelow n (h.write i k v) (h'.write i k v) :=
  { e with stores := e.stores.update i (·.set k v) }

theorem setAccount (e : AgreeBelow n h h') (i : Nat) (k : Bytes) (a : A) :
    AgreeBelow n (h.setAccount i k a) (h'.setAccount i k a) :=
  { e with accounts := e.accounts.update i (·.set k a) }

theorem setContract (e : AgreeBelow n h h') (i : Nat) (k : Bytes) (cs : Option C) :
    AgreeBelow n (h.setContract i k cs) (h'.setContract i k cs) :=
  { e with contracts := e.contracts.update i (·.set k cs) }

theorem setBalances (e : AgreeBelow n h h') (i : Nat) (k : Bytes) (bs : N) :
    AgreeBelow n (h.setBalances i k bs) (h'.setBalances i k bs) :=
  { e with balances := e.balances.update i (·.set k bs) }

theorem write_above (h : Heap A C N) {i : Nat} (hi : n ≤ i) (k : Bytes) (v : Option Bytes) :
    AgreeBelow n (h.write i k v) h :=
  { refl h with stores := EqBelow.update_above _ hi _ }

theorem flush (e : AgreeBelow n h h') {i ps : Nat} (hi : i < n) (hps : ps < n) :
    (h.flush i ps).1 = (h'.flush i ps).1 ∧ AgreeBelow n (h.flush i ps).2 (h'.flush i ps).2 := by
  refine ⟨by simp [Heap.flush, e.stores i hi], { e with stores := fun j hj => ?_ }⟩
  simp only [Heap.flush, Function.update_apply]
  split_ifs <;> simp [e.stores i hi, e.stores ps hps, e.stores j hj]

theorem newStore (h : Heap A C N) (hn : n ≤ h.next) : AgreeBelow n h.newStore.2 h :=
  { refl h with stores := EqBelow.update_above _ hn _ }

theorem newCaches (h : Heap A C N) (hn : n ≤ h.next) : AgreeBelow n h.newCaches.2 h :=
  ⟨fun _ _ => rfl, EqBelow.update_above _ hn _, EqBelow.update_above _ hn _,
    EqBelow.update_above _ hn _, EqBelow.update_above _ hn _⟩

theorem foldl {α : Type} (f : Heap A C N → α → Heap A C N)
    (hf : ∀ {h h' : Heap A C N} (x : α), AgreeBelow n h h' → AgreeBelow n (f h x) (f h' x)) :
    ∀ (l : List α) {h h' : Heap A C N}, AgreeBelow n h h' → AgreeBelow n (l.foldl f h) (l.foldl f h')
  | [], _, _, e => e
  | x :: l, _, _, e => foldl f hf l (hf x e)

theorem foldl_read {α : Type} (f : Heap A C N → α → Heap A C N)
    (hf : ∀ {h h' : Heap A C N} (x : α), AgreeBelow n h h' → AgreeBelow n (f h x) (f h' x))
    (read : Heap A C N → List α)
    (hr : ∀ {h h' : Heap A C N}, AgreeBelow n h h' → read h = read h')
    (e : AgreeBelow n h h') : AgreeBelow n ((read h).foldl f h) ((read h').foldl f h') := by
  rw [hr e]
  exact foldl f hf _ e

end AgreeBelow

end NeoGo.Dao
