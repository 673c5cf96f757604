import Mathlib.Data.List.Dedup
import Mathlib.Data.List.Sort
import NeoGo.Dao.Wrapped

/-! # Walking down the layers: `Persist` and `MigrateNEP5Balances`

A `Cached` built by `NewCached` from another `Cached` embeds a `Cached` that shares the other's
caches, and so on down to a `Simple`. Two methods walk down that chain.

`MigrateNEP5Balances` moves `cachedDAO` to `cachedDAO.DAO` on every round, so it reaches the
bottom `Simple` (`DAO.bottom`). There it writes `cd`'s cached balances, rewrites the stored
balance records that hold a tracker for `from` through a new layer over that `Simple`'s store,
and sets `dropNEP5Cache`. It leaves `cd`'s balances cache as it was, so a balance cached in `cd`
before the migration is still read from `cd` afterwards and written back by `cd.Persist`
(`migrateNEP5Balances_cache`).

The search of `Cached.Persist` for the `Simple` under a lower `Cached` sets `lowerCache` back to
`cd.DAO` on every round instead (`persistSearch`). With two `Cached` layers the first round
finds the `Simple`; with a third `Cached` in between, every round finds the same `Cached`
again and the loop never ends (`persistSearch_spins`): this is where `DAO.persist` answers
`none`.
-/

namespace NeoGo.Dao

variable {A C N : Type}

/-! ## The search of `Cached.Persist` -/

/-- The loop of `Cached.Persist` over a `cd` whose `DAO` is a `Cached`, given `cd.DAO` and
`lowerCache.DAO`, one unit of fuel per round: a `Simple` there ends it; otherwise
`lowerCache = cd.DAO` again, or the "unsupported lower DAO" error (`some none`) when `cd.DAO`
is no `Cached`. `none` is fuel run out. -/
def persistSearch (cdDAO : DAO) : Nat → DAO → Option (Option Simple)
  | 0, _ => none
  | fuel + 1, lower =>
    match lower with
    | .simple s => some (some s)
    | .cached .. =>
      match cdDAO with
      | .cached d .. => persistSearch cdDAO fuel d
      | .simple _ => some none

theorem persistSearch_simple (s : Simple) (la lc lb lt : Nat) (ld : Bool) (fuel : Nat) :
    persistSearch (.cached (.simple s) la lc lb lt ld) (fuel + 1) (.simple s) = some (some s) :=
  rfl

/-- **With a `Cached` under `cd.DAO`, the search never ends**: every round finds that
`Cached` again, whatever the fuel. -/
theorem persistSearch_spins (lower : DAO) (la lc lb lt : Nat) (ld : Bool)
    (hl : lower.isSimple = false) :
    ∀ fuel, persistSearch (.cached lower la lc lb lt ld) fuel lower = none
  | 0 => rfl
  | fuel + 1 => by
    cases lower with
    | simple s => simp [DAO.isSimple] at hl
    | cached d a c b t dr =>
      simp only [persistSearch]
      exact persistSearch_spins _ la lc lb lt ld hl fuel

/-- **`DAO.persist` answers `none` exactly when the search never ends**, for every `Cached`
over a `Cached`. -/
theorem persist_eq_none_iff (c : StateCodec A C N) (lower : DAO) (la lc lb lt : Nat) (ld : Bool)
    (accounts contracts balances transfers : Nat) (drop : Bool) (h : Heap A C N) :
    (DAO.cached (.cached lower la lc lb lt ld) accounts contracts balances transfers drop).persist c h
        = none ↔
      ∀ fuel, persistSearch (.cached lower la lc lb lt ld) fuel lower = none := by
  cases lower with
  | simple s =>
    simp only [DAO.persist, reduceCtorEq, false_iff, not_forall]
    exact ⟨1, by simp [persistSearch_simple]⟩
  | cached d a c' b t dr =>
    simp only [DAO.persist, true_iff]
    exact persistSearch_spins _ la lc lb lt ld rfl

/-- Three `NewCached` layers over a `Simple` over the empty store. -/
def threeLayers : DAO × Heap UInt8 UInt8 UInt8 :=
  let (d, h) := DAO.newCached chainDAO.1 chainDAO.2
  DAO.newCached d h

/-- **`Persist` on three `NewCached` layers never returns**: the DAO under it is a `Cached` over
a `Cached`, and its search loop runs forever. -/
theorem persist_three_layers_spins :
    (∃ lower la lc lb lt ld a c b t drop, threeLayers.1 =
        .cached (.cached lower la lc lb lt ld) a c b t drop ∧ lower.isSimple = false ∧
        ∀ fuel, persistSearch (.cached lower la lc lb lt ld) fuel lower = none) ∧
      threeLayers.1.persist byteCodec threeLayers.2 = none :=
  ⟨⟨_, _, _, _, _, _, _, _, _, _, _, rfl, rfl, persistSearch_spins _ _ _ _ _ _ rfl⟩, rfl⟩

/-! ## `MigrateNEP5Balances` -/

/-- The `Simple` at the bottom of a chain of `Cached`s, where the walk of
`MigrateNEP5Balances`, one layer down per round, ends. -/
def DAO.bottom : DAO → Simple
  | .simple s => s
  | .cached d .. => d.bottom

/-- `bytes.Contains(b, sub)`. -/
def bytesContains : Bytes → Bytes → Bool
  | [], sub => sub.isEmpty
  | b :: bs, sub => sub.isPrefixOf (b :: bs) || bytesContains bs sub

/-- `bytes.Compare(a, b) <= 0`: the bytes compared as unsigned numbers in turn, a prefix
first. -/
def bytesLE : Bytes → Bytes → Bool
  | [], _ => true
  | _ :: _, [] => false
  | a :: as, b :: bs => decide (a < b) || (a == b && bytesLE as bs)

namespace Heap

variable (h : Heap A C N)

/-- The keys the layers of `chain` hold entries for, each once, in ascending order. -/
def keys (chain : List Nat) : List Bytes :=
  ((chain.flatMap fun i => (h.stores i).map Prod.fst).dedup).insertionSort fun a b => bytesLE a b

/-- Modelled from the spec: `Seek(prefix, f)` on the store whose layers are `chain`: every key
with the prefix, in ascending order, and the value it reads, the deleted ones left out. -/
def seek (chain : List Nat) (pfx : Bytes) : List (Bytes × Bytes) :=
  (h.keys chain).filterMap fun k => if pfx.isPrefixOf k then (h.get chain k).map (k, ·) else none

end Heap

/-- Modelled from the spec: the trackers of a `state.NEP5Balances`, by contract hash. -/
structure TrackerCodec (N T : Type) where
  trackers : N → GoMap Bytes T
  withTrackers : N → GoMap Bytes T → N

/-- The callback `MigrateNEP5Balances` gives `Seek`: a balance record holding a tracker for
`fromHash` is put into the layer `up` with that tracker under `toHash`; `none` is the panic on
a record that does not decode. -/
def migrateRecord {T : Type} (c : StateCodec A C N) (tk : TrackerCodec N T)
    (fromHash toHash : Bytes) (up : Nat) (h : Heap A C N) (kv : Bytes × Bytes) :
    Option (Heap A C N) :=
  if !bytesContains kv.2 fromHash then some h
  else
    match c.decodeBalances kv.2 with
    | none => none
    | some bs =>
      match (tk.trackers bs).get fromHash with
      | none => some h
      | some tr =>
        let bs := tk.withTrackers bs (((tk.trackers bs).delete fromHash).set toHash tr)
        some (h.write up kv.1 (some (c.encodeBalances bs)))

/-- `Cached.MigrateNEP5Balances`, with the DAO after it, `dropNEP5Cache` set: `cd`'s cached
balances written into the bottom `Simple`, the balance records there rewritten through a new
layer over its store, and that layer persisted. `none` is a panic, or a `Simple`, which has no
such method. -/
def DAO.migrateNEP5Balances {T : Type} (c : StateCodec A C N) (tk : TrackerCodec N T) :
    DAO → Heap A C N → Bytes → Bytes → Option (DAO × Heap A C N)
  | .simple _, _, _, _ => none
  | .cached d accounts contracts balances transfers _, h, fromHash, toHash =>
    let s := d.bottom
    let h := (h.balances balances).foldl (fun h e => s.putNEP5Balances c h e.1 e.2) h
    let (up, h) := h.newStore
    match (h.seek s.chain [KeyPrefix.stNEP5Balances.toByte]).foldlM
        (migrateRecord c tk fromHash toHash up) h with
    | none => none
    | some h => some (.cached d accounts contracts balances transfers true, (h.flush up s.store).2)

section Migrate

variable {T : Type} (c : StateCodec A C N) (tk : TrackerCodec N T)

theorem migrateRecord_balances {fromHash toHash : Bytes} {up : Nat} {h h' : Heap A C N}
    {kv : Bytes × Bytes} (hm : migrateRecord c tk fromHash toHash up h kv = some h') :
    h'.balances = h.balances := by
  unfold migrateRecord at hm
  split at hm
  · cases hm; rfl
  · split at hm
    · cases hm
    · split at hm
      · cases hm; rfl
      · cases hm; rfl

theorem foldlM_migrateRecord_balances {fromHash toHash : Bytes} {up : Nat} :
    ∀ (l : List (Bytes × Bytes)) {h h' : Heap A C N},
      l.foldlM (migrateRecord c tk fromHash toHash up) h = some h' → h'.balances = h.balances
  | [], _, _, hm => by cases hm; rfl
  | kv :: l, h, h', hm => by
    rw [List.foldlM_cons] at hm
    cases hr : migrateRecord c tk fromHash toHash up h kv with
    | none => rw [hr] at hm; cases hm
    | some h₁ =>
      rw [hr] at hm
      exact (foldlM_migrateRecord_balances l hm).trans (migrateRecord_balances c tk hr)

theorem foldl_putNEP5Balances_balances (s : Simple) (l : List (Bytes × N)) (h : Heap A C N) :
    (l.foldl (fun h e => s.putNEP5Balances c h e.1 e.2) h).balances = h.balances := by
  induction l generalizing h with
  | nil => rfl
  | cons e l ih => exact ih _

/-- **The migration leaves every balances cache as it was**, and sets `dropNEP5Cache`. -/
theorem migrateNEP5Balances_balances {d : DAO} {accounts contracts balances transfers : Nat}
    {drop : Bool} {h h' : Heap A C N} {d' : DAO} {fromHash toHash : Bytes}
    (hm : (DAO.cached d accounts contracts balances transfers drop).migrateNEP5Balances c tk h
      fromHash toHash = some (d', h')) :
    d' = .cached d accounts contracts balances transfers true ∧ h'.balances = h.balances := by
  simp only [DAO.migrateNEP5Balances] at hm
  split at hm
  · cases hm
  · rename_i h₁ hf
    cases hm
    exact ⟨rfl, (foldlM_migrateRecord_balances c tk _ hf).trans (foldl_putNEP5Balances_balances c _ _ _)⟩

/-- **A balance cached in `cd` is read from the cache after the migration**, as it was before. -/
theorem migrateNEP5Balances_cache {d : DAO} {accounts contracts balances transfers : Nat}
    {drop : Bool} {h h' : Heap A C N} {d' : DAO} {fromHash toHash : Bytes}
    (hm : (DAO.cached d accounts contracts balances transfers drop).migrateNEP5Balances c tk h
      fromHash toHash = some (d', h'))
    {acc : Bytes} {bs : N} (hc : (h.balances balances).get acc = some bs) :
    d'.getNEP5Balances c h' acc = .ok bs := by
  obtain ⟨rfl, hb⟩ := migrateNEP5Balances_balances c tk hm
  simp [DAO.getNEP5Balances, hb, hc]

end Migrate

/-! ## A migration under one `Cached` -/

/-- Balances as their trackers, a contract's one-byte hash to an amount. -/
abbrev Trackers := GoMap Bytes UInt8

/-- Reads the pairs of a hash byte and an amount. -/
def decodeTrackers : Bytes → Option Trackers
  | [] => some []
  | [_] => none
  | k :: a :: rest => (decodeTrackers rest).map (([k], a) :: ·)

/-- A codec for the example: accounts and contracts are one byte, as in `byteCodec`, and
balances are their trackers, each written as its hash byte and its amount. -/
def trackerCodec : StateCodec UInt8 UInt8 Trackers where
  accountHash a := [a]
  encodeAccount a := [a]
  decodeAccount := List.head?
  contractHash cs := [cs]
  encodeContract cs := [cs]
  decodeContract := List.head?
  encodeBalances bs := bs.flatMap fun e => e.1 ++ [e.2]
  decodeBalances := decodeTrackers
  newBalances := []

/-- The trackers of balances that are their trackers. -/
def trackersOf : TrackerCodec Trackers UInt8 := ⟨id, fun _ m => m⟩

/-- An empty heap with one backing store, numbered 0, for balances with trackers. -/
def emptyTrackersHeap : Heap UInt8 UInt8 Trackers :=
  ⟨fun _ => [], fun _ => [], fun _ => [], fun _ => [], fun _ => [], 1⟩

/-- The chain's `Simple` over the empty store, and `NewCached` of it with account 7's balances,
a tracker of 5 for contract `0x0f`, put through it. -/
def balancesPut : Simple × DAO × Heap UInt8 UInt8 Trackers :=
  let (s, h) := newSimple 0 [] false false emptyTrackersHeap
  let (cd, h) := DAO.newCached (.simple s) h
  (s, cd, cd.putNEP5Balances trackerCodec h [7] [([0x0f], 5)])

/-- `cd.MigrateNEP5Balances` from contract `0x0f` to `0x0e` after `balancesPut`. -/
def balancesMigrated : Option (DAO × Heap UInt8 UInt8 Trackers) :=
  balancesPut.2.1.migrateNEP5Balances trackerCodec trackersOf balancesPut.2.2 [0x0f] [0x0e]

/-- **The migration from contract `0x0f` to `0x0e` is lost to `cd`'s cache**: it rewrites the
record in the store, but `cd` still reads the tracker under `0x0f`, and after `cd.Persist` and
the `Simple`'s `Persist` the backing store holds it under `0x0f` again. -/
theorem migrate_lost_to_cached_balances :
    balancesMigrated.map (fun dh =>
        (dh.2.get balancesPut.2.1.bottom.chain (appendPrefix .stNEP5Balances [7]),
          dh.1.getNEP5Balances trackerCodec dh.2 [7])) = some (some [0x0e, 5], .ok [([0x0f], 5)]) ∧
    balancesMigrated.bind (fun dh => (dh.1.persist trackerCodec dh.2).map fun p =>
        (balancesPut.1.persist p.2.2).2.get [0] (appendPrefix .stNEP5Balances [7])) =
      some (some [0x0f, 5]) :=
  ⟨rfl, rfl⟩

end NeoGo.Dao
