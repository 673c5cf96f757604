import Mathlib.Data.List.Nodup
import NeoGo.Dao.TransferLog
import NeoGo.Dao.Wrapped

/-! # `Cached.Persist` commits its caches

`Cached` is a write-back cache over the DAO it embeds. `PutAccountState`, `PutNEP5Balances` and
`PutNEP5TransferLog` write its maps only; `PutContractState` and `DeleteContractState` write its
contract map and go through to the DAO; `GetContractState` puts what it reads into the contract
map. Over a `Simple`, `Persist` writes the accounts, balances and logs into the `Simple` and
persists it.

The maps are Go maps, one entry per key; each account sits under its own script hash, and the
contract map holds what the `Simple` reads (`CachesOk`). `NewCached` starts with empty maps and
every call through the `Cached` keeps this. `Persist` then commits: afterwards the `Simple` that
`NewCached` was given answers every read as the `Cached` answered it, and the `Cached` answers
as before.
-/

namespace NeoGo.Dao

variable {A C N : Type}

/-! ## Go maps with one entry per key -/

namespace GoMap

variable {K V : Type} [DecidableEq K]

/-- A Go map has one entry per key. -/
def KeysNodup (m : GoMap K V) : Prop := (m.map Prod.fst).Nodup

theorem KeysNodup.set {m : GoMap K V} (hm : m.KeysNodup) (k : K) (v : V) :
    (m.set k v).KeysNodup := by
  refine List.nodup_cons.mpr ⟨?_, ((List.filter_sublist m).map Prod.fst).nodup hm⟩
  simp

theorem mem_set {m : GoMap K V} {k : K} {v : V} {e : K × V} (he : e ∈ m.set k v) :
    e = (k, v) ∨ e ∈ m := by
  simp only [GoMap.set, List.mem_cons, List.mem_filter] at he
  exact he.imp_right And.left

theorem get_append (l₁ l₂ : GoMap K V) (k : K) : get (l₁ ++ l₂) k = (l₁.get k).or (l₂.get k) := by
  simp only [get, List.find?_append]
  cases l₁.find? (fun e => decide (e.1 = k)) <;> rfl

theorem get_eq_none {m : GoMap K V} {k : K} (hk : ∀ e ∈ m, e.1 ≠ k) : m.get k = none := by
  simpa [get] using hk

theorem get_cons_self (m : GoMap K V) (k : K) (v : V) : get ((k, v) :: m) k = some v := by
  simp [get]

theorem get_cons_ne (m : GoMap K V) {k k' : K} (v : V) (hk : k ≠ k') :
    get ((k, v) :: m) k' = m.get k' := by
  simp [get, hk]

theorem get_map {K' V' : Type} [DecidableEq K'] (m : GoMap K V) (f : K → K')
    (hf : f.Injective) (g : V → V') (k : K) :
    get (m.map fun e => (f e.1, g e.2)) (f k) = (m.get k).map g := by
  simp [get, Function.comp_def, hf.eq_iff, Option.map_map]

theorem get_map_key {K' : Type} [DecidableEq K'] (m : GoMap K V) (f : K → K')
    (hf : f.Injective) (k : K) : get (m.map fun e => (f e.1, e.2)) (f k) = m.get k := by
  simpa using get_map m f hf id k

theorem get_eq_none_of_head {V : Type} {m : GoMap (List UInt8) V} {p q : UInt8}
    (hm : ∀ e ∈ m, e.1.head? = some p) (hq : q ≠ p) (k : List UInt8) : m.get (q :: k) = none :=
  get_eq_none fun e he hek => hq (Option.some.inj (by rw [← hm e he, hek]; rfl))

theorem mem_of_get {m : GoMap K V} {k : K} {v : V} (hv : m.get k = some v) : (k, v) ∈ m := by
  simp only [get, Option.map_eq_some'] at hv
  obtain ⟨e, he, rfl⟩ := hv
  obtain ⟨hk, -⟩ := List.find?_eq_some.mp he
  have hmem := List.mem_of_find?_eq_some he
  simp only [decide_eq_true_eq] at hk
  rwa [← hk]

end GoMap

/-! ## Calls through a DAO -/

/-- A call of the DAO interface: a read, which may fill the contract cache, or a write. -/
inductive Call (A C N : Type) where
  | read (q : Read)
  | write (w : Write A C N)

/-- A call on a DAO: the heap after it. -/
def Call.run (c : StateCodec A C N) : Call A C N → DAO → Heap A C N → Heap A C N
  | .read q, d, h => (q.run c d h).2
  | .write w, d, h => w.run c d h

/-- Calls on a DAO, in order. -/
def DAO.calls (c : StateCodec A C N) (d : DAO) (ops : List (Call A C N)) (h : Heap A C N) :
    Heap A C N :=
  ops.foldl (fun h op => op.run c d h) h

/-- `NewCached` over a `Simple`, and the heap after the calls `ops` through it. -/
def cachedCalls (c : StateCodec A C N) (s : Simple) (h₀ : Heap A C N) (ops : List (Call A C N)) :
    DAO × Heap A C N :=
  ((DAO.newCached (.simple s) h₀).1,
    (DAO.newCached (.simple s) h₀).1.calls c ops (DAO.newCached (.simple s) h₀).2)

/-! ## The caches' invariant -/

/-- The maps of a `Cached` over `s`, numbered `a`, `ct`, `b` and `t`, are Go maps; each account
sits under its own script hash, and each cached contract is what `s` reads. -/
structure CachesOk (c : StateCodec A C N) (s : Simple) (h : Heap A C N) (a ct b t : Nat) :
    Prop where
  accountsKeyed : ∀ e ∈ h.accounts a, c.accountHash e.2 = e.1
  accountsNodup : (h.accounts a).KeysNodup
  balancesNodup : (h.balances b).KeysNodup
  transfersNodup : (h.transfers t).KeysNodup
  logsNodup : ∀ e ∈ h.transfers t, e.2.KeysNodup
  contractsAgree : ∀ hash cs, (h.contracts ct).get hash = some (some cs) →
    s.getContractState c h hash = .ok cs

/-- The prefixes of the records a `Cached` holds in its maps or writes through. -/
def cachePrefixes : List KeyPrefix := [.stAccount, .stContract, .stNEP5Transfers, .stNEP5Balances]

section Invariant

variable {c : StateCodec A C N} {s : Simple} {h : Heap A C N} {a ct b t : Nat}

@[simp] theorem Heap.get_setAccount (h : Heap A C N) (i : Nat) (k : Bytes) (acc : A)
    (chain : List Nat) (key : Bytes) : (h.setAccount i k acc).get chain key = h.get chain key :=
  @Heap.get_congr A C N (h.setAccount i k acc) h chain (fun _ _ => rfl) key

@[simp] theorem Heap.get_setContract (h : Heap A C N) (i : Nat) (k : Bytes) (cs : Option C)
    (chain : List Nat) (key : Bytes) : (h.setContract i k cs).get chain key = h.get chain key :=
  @Heap.get_congr A C N (h.setContract i k cs) h chain (fun _ _ => rfl) key

@[simp] theorem Heap.get_setBalances (h : Heap A C N) (i : Nat) (k : Bytes) (bs : N)
    (chain : List Nat) (key : Bytes) : (h.setBalances i k bs).get chain key = h.get chain key :=
  @Heap.get_congr A C N (h.setBalances i k bs) h chain (fun _ _ => rfl) key

theorem CachesOk.transfer (hok : CachesOk c s h a ct b t) {h' : Heap A C N}
    (ha : h'.accounts a = h.accounts a) (hc : h'.contracts ct = h.contracts ct)
    (hb : h'.balances b = h.balances b) (ht : h'.transfers t = h.transfers t)
    (hg : ∀ hash, s.getContractState c h' hash = s.getContractState c h hash) :
    CachesOk c s h' a ct b t := by
  refine ⟨ha ▸ hok.accountsKeyed, ha ▸ hok.accountsNodup, hb ▸ hok.balancesNodup,
    ht ▸ hok.transfersNodup, ht ▸ hok.logsNodup, fun hash cs hcs => ?_⟩
  rw [hg]
  exact hok.contractsAgree hash cs (hc ▸ hcs)

theorem CachesOk.write (hok : CachesOk c s h a ct b t) {key : Bytes}
    (hkey : ∀ hash, key ≠ appendPrefix .stContract hash) (e : Option Bytes) :
    CachesOk c s (h.write s.store key e) a ct b t :=
  hok.transfer rfl rfl rfl rfl fun hash => by
    simp only [Simple.getContractState, Simple.getAndDecode, Simple.get_write_key,
      if_neg (hkey hash).symm]

theorem CachesOk.setAccount (hok : CachesOk c s h a ct b t) (acc : A) :
    CachesOk c s (h.setAccount a (c.accountHash acc) acc) a ct b t := by
  have hm : (h.setAccount a (c.accountHash acc) acc).accounts a =
      (h.accounts a).set (c.accountHash acc) acc := by simp [Heap.setAccount]
  refine ⟨?_, hm ▸ hok.accountsNodup.set _ _, hok.balancesNodup, hok.transfersNodup,
    hok.logsNodup, fun hash cs hcs => ?_⟩
  · rw [hm]
    intro e he
    rcases GoMap.mem_set he with rfl | he
    · rfl
    · exact hok.accountsKeyed e he
  · simpa only [Simple.getContractState, Simple.getAndDecode, Heap.get_setAccount] using
      hok.contractsAgree hash cs hcs

theorem CachesOk.setBalances (hok : CachesOk c s h a ct b t) (acc : Bytes) (bs : N) :
    CachesOk c s (h.setBalances b acc bs) a ct b t := by
  have hm : (h.setBalances b acc bs).balances b = (h.balances b).set acc bs := by
    simp [Heap.setBalances]
  refine ⟨hok.accountsKeyed, hok.accountsNodup, hm ▸ hok.balancesNodup.set _ _,
    hok.transfersNodup, hok.logsNodup, fun hash cs hcs => ?_⟩
  simpa only [Simple.getContractState, Simple.getAndDecode, Heap.get_setBalances] using
    hok.contractsAgree hash cs hcs

theorem CachesOk.setTransfers (hok : CachesOk c s h a ct b t) (acc : Bytes) (index : UInt32)
    (lg : Bytes) :
    CachesOk c s (h.setTransfers t acc ((((h.transfers t).get acc).getD []).set index lg))
      a ct b t := by
  have hm : (h.setTransfers t acc ((((h.transfers t).get acc).getD []).set index lg)).transfers t =
      (h.transfers t).set acc ((((h.transfers t).get acc).getD []).set index lg) := by
    simp [Heap.setTransfers]
  have hold : (((h.transfers t).get acc).getD []).KeysNodup := by
    cases hg : (h.transfers t).get acc with
    | none => exact List.nodup_nil
    | some ts => exact hok.logsNodup _ (GoMap.mem_of_get hg)
  refine ⟨hok.accountsKeyed, hok.accountsNodup, hok.balancesNodup,
    hm ▸ hok.transfersNodup.set _ _, ?_, fun hash cs hcs => ?_⟩
  · rw [hm]
    intro e he
    rcases GoMap.mem_set he with rfl | he
    · exact hold.set _ _
    · exact hok.logsNodup e he
  · simpa only [Simple.getContractState, Simple.getAndDecode, DAO.get_setTransfers] using
      hok.contractsAgree hash cs hcs

/-- A contract put into the map as `s` reads it. -/
theorem CachesOk.setContract_read (hok : CachesOk c s h a ct b t) {hash : Bytes} {cs : C}
    (hr : s.getContractState c h hash = .ok cs) :
    CachesOk c s (h.setContract ct hash (some cs)) a ct b t := by
  refine ⟨hok.accountsKeyed, hok.accountsNodup, hok.balancesNodup, hok.transfersNodup,
    hok.logsNodup, fun hash' cs' hcs => ?_⟩
  simp only [Simple.getContractState, Simple.getAndDecode, Heap.get_setContract]
  by_cases hk : hash' = hash
  · subst hk
    simp only [Heap.setContract, Function.update_same, GoMap.get_set_self,
      Option.some.injEq] at hcs
    rw [← hcs, ← hr]
    rfl
  · simp only [Heap.setContract, Function.update_same, GoMap.get_set_ne _ _ (Ne.symm hk)] at hcs
    exact hok.contractsAgree hash' cs' hcs

theorem CachesOk.getContractState (hok : CachesOk c s h a ct b t) (drop : Bool) (hash : Bytes) :
    CachesOk c s ((DAO.cached (.simple s) a ct b t drop).getContractState c h hash).2 a ct b t := by
  simp only [DAO.getContractState]
  split
  · exact hok
  · cases hr : s.getContractState c h hash with
    | error e => exact hok
    | ok cs => exact hok.setContract_read hr

/-- A contract put or deleted through the `Cached`, in its map and in `s` alike. -/
theorem CachesOk.setContract (hok : CachesOk c s h a ct b t) (hash : Bytes) (cs : Option C)
    (e : Option Bytes) (he : ∀ cs', cs = some cs' → e.bind c.decodeContract = some cs') :
    CachesOk c s ((h.setContract ct hash cs).write s.store (appendPrefix .stContract hash) e)
      a ct b t := by
  refine ⟨hok.accountsKeyed, hok.accountsNodup, hok.balancesNodup, hok.transfersNodup,
    hok.logsNodup, fun hash' cs' hcs => ?_⟩
  simp only [Simple.getContractState, Simple.getAndDecode, Simple.get_write_key]
  by_cases hk : hash' = hash
  · subst hk
    simp only [Heap.write, Heap.setContract, Function.update_same, GoMap.get_set_self] at hcs
    obtain ⟨d, rfl, hd⟩ : ∃ d, e = some d ∧ c.decodeContract d = some cs' := by
      simpa [Option.bind_eq_some] using he cs' (Option.some.inj hcs)
    simp [hd]
  · have hk' : appendPrefix .stContract hash' ≠ appendPrefix .stContract hash :=
      fun e => hk (List.cons.inj e).2
    simp only [Heap.write, Heap.setContract, Function.update_same,
      GoMap.get_set_ne _ _ (Ne.symm hk)] at hcs
    rw [if_neg hk', Heap.get_setContract]
    exact hok.contractsAgree hash' cs' hcs

theorem makeStorageItemKey_ne {p : UInt8} (hp : p ≠ KeyPrefix.stContract.toByte) (id : UInt32)
    (key hash : Bytes) : Simple.makeStorageItemKey p id key ≠ appendPrefix .stContract hash :=
  fun e => hp (List.cons.inj e).1

/-- **Every call through a `Cached` over `s` keeps its invariant**, when the codec reads back
the contracts it writes and the storage prefix is not the contract prefix. -/
theorem CachesOk.call (hok : CachesOk c s h a ct b t)
    (hcon : ∀ cs, c.decodeContract (c.encodeContract cs) = some cs)
    (hsp : s.version.storagePrefix ≠ KeyPrefix.stContract.toByte) (drop : Bool) :
    ∀ op : Call A C N, CachesOk c s (op.run c (.cached (.simple s) a ct b t drop) h) a ct b t
  | .read (.getContractState hash) => hok.getContractState drop hash
  | .read (.getAccountState _) | .read (.getNEP5Balances _) | .read (.getNEP5TransferLog _ _)
  | .read (.getStorageItem _ _) => hok
  | .write (.putAccountState acc) => hok.setAccount acc
  | .write (.putContractState cs) =>
    hok.setContract _ _ _ fun cs' h' => by simp [← Option.some.inj h', hcon]
  | .write (.deleteContractState hash) => hok.setContract _ _ _ fun _ h' => nomatch h'
  | .write (.putNEP5Balances acc bs) => hok.setBalances acc bs
  | .write (.putNEP5TransferLog acc index lg) => hok.setTransfers acc index lg
  | .write (.putStorageItem id key si) => hok.write (makeStorageItemKey_ne hsp id key) _
  | .write (.deleteStorageItem id key) => hok.write (makeStorageItemKey_ne hsp id key) _

theorem CachesOk.calls (hok : CachesOk c s h a ct b t)
    (hcon : ∀ cs, c.decodeContract (c.encodeContract cs) = some cs)
    (hsp : s.version.storagePrefix ≠ KeyPrefix.stContract.toByte) (drop : Bool)
    (ops : List (Call A C N)) :
    CachesOk c s ((DAO.cached (.simple s) a ct b t drop).calls c ops h) a ct b t := by
  induction ops generalizing h with
  | nil => exact hok
  | cons op ops ih => exact ih (hok.call hcon hsp drop op)

end Invariant

theorem newCached_simple (s : Simple) (h₀ : Heap A C N) :
    DAO.newCached (.simple s) h₀ =
      (.cached (.simple (s.getWrapped h₀).1) (h₀.next + 1) (h₀.next + 1) (h₀.next + 1)
        (h₀.next + 1) false, (s.getWrapped h₀).2.newCaches.2) := rfl

theorem cachesOk_newCached (c : StateCodec A C N) (s : Simple) (h₀ : Heap A C N) :
    CachesOk c (s.getWrapped h₀).1 (s.getWrapped h₀).2.newCaches.2 (h₀.next + 1) (h₀.next + 1)
      (h₀.next + 1) (h₀.next + 1) := by
  have hn : (s.getWrapped h₀).2.next = h₀.next + 1 := rfl
  refine ⟨?_, ?_, ?_, ?_, ?_, ?_⟩ <;>
    simp [Heap.newCaches, hn, GoMap.KeysNodup]

/-! ## What `Persist` writes -/

/-- The records `Persist` writes for the accounts map: each account under its script hash. -/
def accountRecords (c : StateCodec A C N) (m : GoMap Bytes A) : List (Bytes × Bytes) :=
  m.map fun e => (appendPrefix .stAccount (c.accountHash e.2), c.encodeAccount e.2)

/-- The records `Persist` writes for the balances map. -/
def balanceRecords (c : StateCodec A C N) (m : GoMap Bytes N) : List (Bytes × Bytes) :=
  m.map fun e => (appendPrefix .stNEP5Balances e.1, c.encodeBalances e.2)

/-- The records `Persist` writes for the transfers map: each log under its account and index. -/
def logRecords (m : GoMap Bytes (GoMap UInt32 Bytes)) : List (Bytes × Bytes) :=
  m.flatMap fun e => e.2.map fun l => (Simple.nep5TransferLogKey e.1 l.1, l.2)

/-- The records of the three maps, in the order `Persist` writes them. -/
def cacheRecords (c : StateCodec A C N) (h : Heap A C N) (a b t : Nat) : List (Bytes × Bytes) :=
  accountRecords c (h.accounts a) ++ balanceRecords c (h.balances b) ++ logRecords (h.transfers t)

theorem appendPrefix_injective (p : KeyPrefix) : (appendPrefix p).Injective :=
  fun _ _ e => (List.cons.inj e).2

section Flush

variable (s : Simple)

theorem Simple.foldl_put_eq (l : List (Bytes × Bytes)) (h : Heap A C N) :
    l.foldl (fun h e => s.put h e.1 e.2) h =
      { h with stores := (l.foldl (fun h e => s.put h e.1 e.2) h).stores } := by
  induction l generalizing h with
  | nil => rfl
  | cons e l ih => exact ih _

@[simp] theorem Simple.balances_foldl_put (l : List (Bytes × Bytes)) (h : Heap A C N) :
    (l.foldl (fun h e => s.put h e.1 e.2) h).balances = h.balances := by
  rw [Simple.foldl_put_eq]

@[simp] theorem Simple.transfers_foldl_put (l : List (Bytes × Bytes)) (h : Heap A C N) :
    (l.foldl (fun h e => s.put h e.1 e.2) h).transfers = h.transfers := by
  rw [Simple.foldl_put_eq]

/-- Puts of records with one entry per key read back each record, and every other key as
before. -/
theorem Simple.get_foldl_put_records {l : List (Bytes × Bytes)} (hl : GoMap.KeysNodup l)
    (h : Heap A C N) (k : Bytes) :
    (l.foldl (fun h e => s.put h e.1 e.2) h).get s.chain k =
      (GoMap.get l k).or (h.get s.chain k) := by
  induction l generalizing h with
  | nil => rfl
  | cons e l ih =>
    obtain ⟨he, hl⟩ := List.nodup_cons.mp hl
    rw [List.foldl_cons, ih hl, Simple.put, Simple.get_write_key]
    by_cases hk : k = e.1
    · subst hk
      rw [GoMap.get_eq_none fun x hx hxk => he (hxk ▸ List.mem_map_of_mem Prod.fst hx :)]
      simp [GoMap.get]
    · simp [GoMap.get, List.find?_cons, Ne.symm hk, hk]

/-- `Persist`'s writes of the maps are the puts of their records. -/
theorem flushCaches_eq (c : StateCodec A C N) (a b t : Nat) (h : Heap A C N) :
    DAO.flushCaches c s a b t h = (cacheRecords c h a b t).foldl (fun h e => s.put h e.1 e.2) h := by
  have hlogs : ∀ (m : GoMap Bytes (GoMap UInt32 Bytes)) (h : Heap A C N),
      m.foldl (fun h e => e.2.foldl (fun h l => s.putNEP5TransferLog h e.1 l.1 l.2) h) h =
        (logRecords m).foldl (fun h e => s.put h e.1 e.2) h := by
    intro m
    induction m with
    | nil => exact fun _ => rfl
    | cons e m ih =>
      intro h
      rw [List.foldl_cons, ih, logRecords, logRecords, List.flatMap_cons, List.foldl_append,
        List.foldl_map]
      rfl
  have hacc : (h.accounts a).foldl (fun h e => s.putAccountState c h e.2) h =
      (accountRecords c (h.accounts a)).foldl (fun h e => s.put h e.1 e.2) h :=
    (List.foldl_map
      (fun e : Bytes × A => (appendPrefix .stAccount (c.accountHash e.2), c.encodeAccount e.2))
      (fun (h : Heap A C N) (e : Bytes × Bytes) => s.put h e.1 e.2) _ _).symm
  have hbal : ∀ h', (h.balances b).foldl (fun h e => s.putNEP5Balances c h e.1 e.2) h' =
      (balanceRecords c (h.balances b)).foldl (fun h e => s.put h e.1 e.2) h' :=
    fun _ => (List.foldl_map
      (fun e : Bytes × N => (appendPrefix .stNEP5Balances e.1, c.encodeBalances e.2))
      (fun (h : Heap A C N) (e : Bytes × Bytes) => s.put h e.1 e.2) _ _).symm
  rw [DAO.flushCaches, hacc, Simple.balances_foldl_put, hbal, Simple.transfers_foldl_put,
    Simple.transfers_foldl_put, hlogs, cacheRecords, List.foldl_append, List.foldl_append]

theorem flushCaches_caches (c : StateCodec A C N) (a b t : Nat) (h : Heap A C N) :
    (DAO.flushCaches c s a b t h).accounts = h.accounts ∧
      (DAO.flushCaches c s a b t h).contracts = h.contracts ∧
      (DAO.flushCaches c s a b t h).balances = h.balances ∧
      (DAO.flushCaches c s a b t h).transfers = h.transfers := by
  rw [flushCaches_eq, Simple.foldl_put_eq]
  exact ⟨rfl, rfl, rfl, rfl⟩

end Flush

section Records

variable {c : StateCodec A C N} {s : Simple} {h : Heap A C N} {a ct b t : Nat}

theorem accountRecords_eq (hok : CachesOk c s h a ct b t) :
    accountRecords c (h.accounts a) =
      (h.accounts a).map fun e => (appendPrefix .stAccount e.1, c.encodeAccount e.2) :=
  List.map_congr_left fun e he => by rw [hok.accountsKeyed e he]

theorem accountRecords_head (m : GoMap Bytes A) :
    ∀ e ∈ accountRecords c m, e.1.head? = some KeyPrefix.stAccount.toByte := fun _ he => by
  obtain ⟨_, -, rfl⟩ := List.mem_map.mp he
  rfl

theorem balanceRecords_head (m : GoMap Bytes N) :
    ∀ e ∈ balanceRecords c m, e.1.head? = some KeyPrefix.stNEP5Balances.toByte := fun _ he => by
  obtain ⟨_, -, rfl⟩ := List.mem_map.mp he
  rfl

theorem logRecords_head (m : GoMap Bytes (GoMap UInt32 Bytes)) :
    ∀ e ∈ logRecords m, e.1.head? = some KeyPrefix.stNEP5Transfers.toByte := fun _ he => by
  obtain ⟨_, -, hl⟩ := List.mem_flatMap.mp he
  obtain ⟨_, -, rfl⟩ := List.mem_map.mp hl
  rfl

/-- No key is written twice: each map has one entry per key, the logs' keys hold the account
and index, and the three kinds of records have distinct prefixes. -/
theorem logRecords_keysNodup {m : GoMap Bytes (GoMap UInt32 Bytes)} (hm : m.KeysNodup)
    (hl : ∀ e ∈ m, e.2.KeysNodup) : GoMap.KeysNodup (logRecords m) := by
  induction m with
  | nil => exact List.nodup_nil
  | cons e m ih =>
    obtain ⟨he, hm⟩ := List.nodup_cons.mp hm
    have hkey : (e.2.map fun l => (Simple.nep5TransferLogKey e.1 l.1, l.2)).map Prod.fst =
        (e.2.map Prod.fst).map (Simple.nep5TransferLogKey e.1) := by
      simp only [List.map_map]; rfl
    rw [GoMap.KeysNodup, logRecords, List.flatMap_cons, List.map_append, List.nodup_append, hkey]
    refine ⟨(hl e (List.mem_cons_self _ _)).map fun _ _ e => (DAO.nep5TransferLogKey_inj.mp e).2,
      ih hm fun e' he' => hl e' (List.mem_cons_of_mem _ he'), ?_⟩
    intro k hk₁ hk₂
    obtain ⟨i, -, rfl⟩ := List.mem_map.mp hk₁
    obtain ⟨x, hx, hxk⟩ := List.mem_map.mp hk₂
    obtain ⟨e', he', hl⟩ := List.mem_flatMap.mp hx
    obtain ⟨l, -, rfl⟩ := List.mem_map.mp hl
    have hk : e'.1 = e.1 := (DAO.nep5TransferLogKey_inj.mp hxk).1
    exact he (hk ▸ List.mem_map_of_mem Prod.fst he')

theorem keys_disjoint {l₁ l₂ : List (Bytes × Bytes)} {p q : UInt8}
    (h₁ : ∀ e ∈ l₁, e.1.head? = some p) (h₂ : ∀ e ∈ l₂, e.1.head? = some q) (hpq : p ≠ q) :
    (l₁.map Prod.fst).Disjoint (l₂.map Prod.fst) := by
  intro k hk₁ hk₂
  obtain ⟨e₁, he₁, rfl⟩ := List.mem_map.mp hk₁
  obtain ⟨e₂, he₂, hk⟩ := List.mem_map.mp hk₂
  exact hpq (Option.some.inj ((h₁ e₁ he₁).symm.trans (hk ▸ h₂ e₂ he₂)))

theorem cacheRecords_keysNodup (hok : CachesOk c s h a ct b t) :
    GoMap.KeysNodup (cacheRecords c h a b t) := by
  have hacc : GoMap.KeysNodup (accountRecords c (h.accounts a)) := by
    have hkeys : ((h.accounts a).map fun e => (appendPrefix .stAccount e.1, c.encodeAccount e.2)).map
        Prod.fst = ((h.accounts a).map Prod.fst).map (appendPrefix .stAccount) := by
      simp only [List.map_map]; rfl
    rw [accountRecords_eq hok, GoMap.KeysNodup, hkeys]
    exact hok.accountsNodup.map (appendPrefix_injective .stAccount)
  have hbal : GoMap.KeysNodup (balanceRecords c (h.balances b)) := by
    have hkeys : (balanceRecords c (h.balances b)).map Prod.fst =
        ((h.balances b).map Prod.fst).map (appendPrefix .stNEP5Balances) := by
      simp only [balanceRecords, List.map_map]; rfl
    rw [GoMap.KeysNodup, hkeys]
    exact hok.balancesNodup.map (appendPrefix_injective .stNEP5Balances)
  rw [cacheRecords, GoMap.KeysNodup, List.map_append, List.map_append, List.nodup_append,
    List.nodup_append]
  refine ⟨⟨hacc, hbal, keys_disjoint (accountRecords_head _) (balanceRecords_head _) (by decide)⟩,
    logRecords_keysNodup hok.transfersNodup hok.logsNodup, ?_⟩
  rw [← List.map_append]
  intro k hk₁ hk₂
  obtain ⟨e, he, rfl⟩ := List.mem_map.mp hk₁
  rcases List.mem_append.mp he with he | he
  · exact keys_disjoint (accountRecords_head _) (logRecords_head _) (by decide)
      (List.mem_map_of_mem _ he) hk₂
  · exact keys_disjoint (balanceRecords_head _) (logRecords_head _) (by decide)
      (List.mem_map_of_mem _ he) hk₂

theorem get_logRecords {m : GoMap Bytes (GoMap UInt32 Bytes)} (hm : m.KeysNodup) (acc : Bytes)
    (index : UInt32) :
    GoMap.get (logRecords m) (Simple.nep5TransferLogKey acc index) =
      (m.get acc).bind (·.get index) := by
  induction m with
  | nil => rfl
  | cons e m ih =>
    obtain ⟨k, ts⟩ := e
    obtain ⟨he, hm⟩ := List.nodup_cons.mp hm
    rw [logRecords, List.flatMap_cons, GoMap.get_append, ← logRecords]
    dsimp only at he ⊢
    by_cases hk : k = acc
    · subst hk
      have hrest : GoMap.get (logRecords m) (Simple.nep5TransferLogKey k index) = none :=
        GoMap.get_eq_none fun x hx hxk => by
          obtain ⟨e', he', hl⟩ := List.mem_flatMap.mp hx
          obtain ⟨l, -, rfl⟩ := List.mem_map.mp hl
          have hk : e'.1 = k := (DAO.nep5TransferLogKey_inj.mp hxk).1
          exact he (hk ▸ List.mem_map_of_mem Prod.fst he')
      rw [hrest, GoMap.get_map_key _ _ (fun _ _ e => (DAO.nep5TransferLogKey_inj.mp e).2),
        GoMap.get_cons_self, Option.or_none]
      rfl
    · have hnone : GoMap.get (ts.map fun l => (Simple.nep5TransferLogKey k l.1, l.2))
          (Simple.nep5TransferLogKey acc index) = none :=
        GoMap.get_eq_none fun x hx hxk => by
          obtain ⟨l, -, rfl⟩ := List.mem_map.mp hx
          exact hk (DAO.nep5TransferLogKey_inj.mp hxk).1
      rw [hnone, GoMap.get_cons_ne _ _ hk, ← ih hm]
      rfl

theorem get_cacheRecords_account (hok : CachesOk c s h a ct b t) (hash : Bytes) :
    GoMap.get (cacheRecords c h a b t) (appendPrefix .stAccount hash) =
      ((h.accounts a).get hash).map c.encodeAccount := by
  rw [cacheRecords, GoMap.get_append, GoMap.get_append, accountRecords_eq hok, appendPrefix,
    GoMap.get_eq_none_of_head (balanceRecords_head _) (by decide),
    GoMap.get_eq_none_of_head (logRecords_head _) (by decide), Option.or_none, Option.or_none]
  exact GoMap.get_map _ _ (appendPrefix_injective .stAccount) _ _

theorem get_cacheRecords_balances (acc : Bytes) :
    GoMap.get (cacheRecords c h a b t) (appendPrefix .stNEP5Balances acc) =
      ((h.balances b).get acc).map c.encodeBalances := by
  rw [cacheRecords, GoMap.get_append, GoMap.get_append, appendPrefix,
    GoMap.get_eq_none_of_head (accountRecords_head _) (by decide),
    GoMap.get_eq_none_of_head (logRecords_head _) (by decide), Option.or_none]
  exact GoMap.get_map _ _ (appendPrefix_injective .stNEP5Balances) _ _

theorem get_cacheRecords_log (hok : CachesOk c s h a ct b t) (acc : Bytes) (index : UInt32) :
    GoMap.get (cacheRecords c h a b t) (Simple.nep5TransferLogKey acc index) =
      ((h.transfers t).get acc).bind (·.get index) := by
  rw [cacheRecords, GoMap.get_append, GoMap.get_append, Simple.nep5TransferLogKey,
    GoMap.get_eq_none_of_head (accountRecords_head _) (by decide),
    GoMap.get_eq_none_of_head (balanceRecords_head _) (by decide), ← Simple.nep5TransferLogKey,
    get_logRecords hok.transfersNodup]
  rfl

theorem get_cacheRecords_eq_none (q : UInt8) (ha : q ≠ KeyPrefix.stAccount.toByte)
    (hb : q ≠ KeyPrefix.stNEP5Balances.toByte) (ht : q ≠ KeyPrefix.stNEP5Transfers.toByte)
    (k : Bytes) : GoMap.get (cacheRecords c h a b t) (q :: k) = none := by
  rw [cacheRecords, GoMap.get_append, GoMap.get_append,
    GoMap.get_eq_none_of_head (accountRecords_head _) ha,
    GoMap.get_eq_none_of_head (balanceRecords_head _) hb,
    GoMap.get_eq_none_of_head (logRecords_head _) ht]
  rfl

theorem get_flushCaches (hok : CachesOk c s h a ct b t) (k : Bytes) :
    (DAO.flushCaches c s a b t h).get s.chain k =
      (GoMap.get (cacheRecords c h a b t) k).or (h.get s.chain k) := by
  rw [flushCaches_eq, Simple.get_foldl_put_records _ (cacheRecords_keysNodup hok)]

end Records

/-! ## `Persist` commits -/

section Commit

variable {c : StateCodec A C N} {s : Simple} {h : Heap A C N} {a ct b t : Nat}

theorem DAO.getContractState_cached_fst (d : DAO) (accounts contracts balances transfers : Nat)
    (drop : Bool) (h : Heap A C N) (hash : Bytes) :
    ((DAO.cached d accounts contracts balances transfers drop).getContractState c h hash).1 =
      match (h.contracts contracts).get hash with
      | some (some cs) => .ok cs
      | _ => (d.getContractState c h hash).1 := by
  rcases hg : (h.contracts contracts).get hash with _ | _ | cs <;>
    simp only [DAO.getContractState, hg]

/-- **After the maps are written into `s`, `s` answers every read as the `Cached` did**, and
so does the `Cached`. -/
theorem Read.run_flushCaches (hok : CachesOk c s h a ct b t)
    (hacc : ∀ x, c.decodeAccount (c.encodeAccount x) = some x)
    (hbal : ∀ bs, c.decodeBalances (c.encodeBalances bs) = some bs)
    (hsp : ∀ p ∈ cachePrefixes, s.version.storagePrefix ≠ p.toByte) (drop : Bool) (q : Read) :
    (q.run c (.simple s) (DAO.flushCaches c s a b t h)).1 =
        (q.run c (.cached (.simple s) a ct b t drop) h).1 ∧
      (q.run c (.cached (.simple s) a ct b t drop) (DAO.flushCaches c s a b t h)).1 =
        (q.run c (.cached (.simple s) a ct b t drop) h).1 := by
  obtain ⟨hca, hcc, hcb, hct⟩ := flushCaches_caches s c a b t h
  cases q with
  | getAccountState hash =>
    simp only [Read.run, DAO.getAccountState, Simple.getAccountState, Simple.getAndDecode,
      get_flushCaches hok, get_cacheRecords_account hok, hca]
    cases (h.accounts a).get hash <;> simp [hacc]
  | getContractState hash =>
    have hF : s.getContractState c (DAO.flushCaches c s a b t h) hash =
        s.getContractState c h hash := by
      simp only [Simple.getContractState, Simple.getAndDecode, get_flushCaches hok, appendPrefix,
        get_cacheRecords_eq_none KeyPrefix.stContract.toByte (by decide) (by decide) (by decide),
        Option.none_or]
    simp only [Read.run, DAO.getContractState_cached_fst, hcc]
    split
    · rename_i cs hcs
      simp only [DAO.getContractState, hF, hok.contractsAgree hash cs hcs, and_self]
    · simp only [DAO.getContractState, hF, and_self]
  | getNEP5Balances acc =>
    simp only [Read.run, DAO.getNEP5Balances, Simple.getNEP5Balances, Simple.getAndDecode,
      get_flushCaches hok, get_cacheRecords_balances, hcb]
    cases (h.balances b).get acc <;> simp [hbal]
  | getNEP5TransferLog acc index =>
    simp only [Read.run, DAO.getNEP5TransferLog, Simple.getNEP5TransferLog,
      get_flushCaches hok, get_cacheRecords_log hok, hct]
    cases ((h.transfers t).get acc).bind (·.get index) <;> simp
  | getStorageItem id key =>
    have hF : (DAO.flushCaches c s a b t h).get s.chain
        (Simple.makeStorageItemKey s.version.storagePrefix id key) =
          h.get s.chain (Simple.makeStorageItemKey s.version.storagePrefix id key) := by
      rw [get_flushCaches hok, Simple.makeStorageItemKey,
        get_cacheRecords_eq_none _ (hsp _ (by decide)) (hsp _ (by decide)) (hsp _ (by decide)),
        Option.none_or]
    simp only [Read.run, DAO.getStorageItem, Simple.getStorageItem, hF, and_self]

theorem Read.run_simple_congr {s₁ s₂ : Simple} {h₁ h₂ : Heap A C N}
    (hg : ∀ k, h₁.get s₁.chain k = h₂.get s₂.chain k)
    (hv : s₁.version.storagePrefix = s₂.version.storagePrefix) (q : Read) :
    (q.run c (.simple s₁) h₁).1 = (q.run c (.simple s₂) h₂).1 := by
  cases q <;>
    simp only [Read.run, DAO.getAccountState, DAO.getContractState, DAO.getNEP5Balances,
      DAO.getNEP5TransferLog, DAO.getStorageItem, Simple.getAccountState, Simple.getContractState,
      Simple.getNEP5Balances, Simple.getNEP5TransferLog, Simple.getStorageItem,
      Simple.getAndDecode, hg, hv]

theorem Read.run_cached_congr {h₁ h₂ : Heap A C N} (hg : ∀ k, h₁.get s.chain k = h₂.get s.chain k)
    (ha : h₁.accounts = h₂.accounts) (hc : h₁.contracts = h₂.contracts)
    (hb : h₁.balances = h₂.balances) (ht : h₁.transfers = h₂.transfers) (drop : Bool) (q : Read) :
    (q.run c (.cached (.simple s) a ct b t drop) h₁).1 =
      (q.run c (.cached (.simple s) a ct b t drop) h₂).1 := by
  cases q <;> simp only [Read.run, DAO.getContractState_cached_fst] <;>
    simp only [DAO.getAccountState, DAO.getContractState, DAO.getNEP5Balances,
      DAO.getNEP5TransferLog, DAO.getStorageItem, Simple.getAccountState, Simple.getContractState,
      Simple.getNEP5Balances, Simple.getNEP5TransferLog, Simple.getStorageItem,
      Simple.getAndDecode, hg, ha, hb, hc, ht]

/-- `Persist` of a `Cached` over a `Simple` returns; afterwards a `Simple` over the store below
`s` answers every read as the `Cached` did, and the `Cached` answers as before. -/
theorem persist_cached_commits (hok : CachesOk c s h a ct b t)
    (hacc : ∀ x, c.decodeAccount (c.encodeAccount x) = some x)
    (hbal : ∀ bs, c.decodeBalances (c.encodeBalances bs) = some bs)
    (hsp : ∀ p ∈ cachePrefixes, s.version.storagePrefix ≠ p.toByte) (hs : s.chain.Nodup)
    {s₀ : Simple} (hbelow : s₀.chain = s.ps :: s.below)
    (hv : s₀.version.storagePrefix = s.version.storagePrefix) (drop : Bool) :
    ∃ n h', (DAO.cached (.simple s) a ct b t drop).persist c h =
        some (n, .cached (.simple s) a ct b t drop, h') ∧
      ∀ q : Read,
        (q.run c (.simple s₀) h').1 = (q.run c (.cached (.simple s) a ct b t drop) h).1 ∧
          (q.run c (.cached (.simple s) a ct b t drop) h').1 =
            (q.run c (.cached (.simple s) a ct b t drop) h).1 := by
  have hbelow' : ∀ k, (s.persist (DAO.flushCaches c s a b t h)).2.get s₀.chain k =
      (DAO.flushCaches c s a b t h).get s.chain k := by
    rw [hbelow]
    exact Simple.get_persist_below hs _
  refine ⟨_, _, rfl, fun q => ⟨?_, ?_⟩⟩
  · exact (Read.run_simple_congr hbelow' hv q).trans (Read.run_flushCaches hok hacc hbal hsp drop q).1
  · exact (Read.run_cached_congr (Simple.get_persist hs _) rfl rfl rfl rfl drop q).trans
      (Read.run_flushCaches hok hacc hbal hsp drop q).2

end Commit

/-- **`Persist` of `NewCached(s)` commits, whatever calls were made through the `Cached`.**
`Persist` returns; afterwards `s` answers every read as the `Cached` answered it before, and
the `Cached` answers as before. The codec reads back what it writes, `s`'s layers are distinct
stores, and the storage prefix is none of the prefixes the `Cached` keeps records under. -/
theorem persist_newCached_commits (c : StateCodec A C N)
    (hacc : ∀ x, c.decodeAccount (c.encodeAccount x) = some x)
    (hcon : ∀ cs, c.decodeContract (c.encodeContract cs) = some cs)
    (hbal : ∀ bs, c.decodeBalances (c.encodeBalances bs) = some bs)
    {s : Simple} {h₀ : Heap A C N} (hs : s.chain.Nodup) (hfresh : (DAO.simple s).Below h₀.next)
    (hsp : ∀ p ∈ cachePrefixes, s.version.storagePrefix ≠ p.toByte) (ops : List (Call A C N)) :
    ∃ n h', (cachedCalls c s h₀ ops).1.persist c (cachedCalls c s h₀ ops).2 =
        some (n, (cachedCalls c s h₀ ops).1, h') ∧
      ∀ q : Read,
        (q.run c (.simple s) h').1 =
            (q.run c (cachedCalls c s h₀ ops).1 (cachedCalls c s h₀ ops).2).1 ∧
          (q.run c (cachedCalls c s h₀ ops).1 h').1 =
            (q.run c (cachedCalls c s h₀ ops).1 (cachedCalls c s h₀ ops).2).1 := by
  have hs' : (s.getWrapped h₀).1.chain.Nodup :=
    List.nodup_cons.mpr ⟨fun hmem => Nat.lt_irrefl _ (hfresh _ hmem), hs⟩
  have hok := (cachesOk_newCached c s h₀).calls hcon (hsp _ (by decide)) false ops
  exact persist_cached_commits hok hacc hbal hsp hs' rfl rfl false

/-- An account, a contract put and read back, a transfer log and a storage item, through
`NewCached` over the chain's `Simple`. -/
def commitCalls : List (Call UInt8 UInt8 UInt8) :=
  [.write (.putAccountState 7), .write (.putContractState 3), .read (.getContractState [3]),
    .write (.putNEP5TransferLog [7] 0 [1, 2]), .write (.putStorageItem 1 [2] [3])]

/-- The chain's `Simple` over the empty store. -/
def commitSimple : Simple × Heap UInt8 UInt8 UInt8 := newSimple 0 [] false false emptyHeap

theorem persist_newCached_commits_on_commitCalls :
    (∀ x, byteCodec.decodeAccount (byteCodec.encodeAccount x) = some x) ∧
      (∀ cs, byteCodec.decodeContract (byteCodec.encodeContract cs) = some cs) ∧
      (∀ bs, byteCodec.decodeBalances (byteCodec.encodeBalances bs) = some bs) ∧
      commitSimple.1.chain.Nodup ∧ (DAO.simple commitSimple.1).Below commitSimple.2.next ∧
      (∀ p ∈ cachePrefixes, commitSimple.1.version.storagePrefix ≠ p.toByte) ∧
      ∃ n h', (cachedCalls byteCodec commitSimple.1 commitSimple.2 commitCalls).1.persist byteCodec
          (cachedCalls byteCodec commitSimple.1 commitSimple.2 commitCalls).2 =
            some (n, (cachedCalls byteCodec commitSimple.1 commitSimple.2 commitCalls).1, h') ∧
        ∀ q : Read,
          (q.run byteCodec (.simple commitSimple.1) h').1 =
              (q.run byteCodec (cachedCalls byteCodec commitSimple.1 commitSimple.2 commitCalls).1
                (cachedCalls byteCodec commitSimple.1 commitSimple.2 commitCalls).2).1 ∧
            (q.run byteCodec (cachedCalls byteCodec commitSimple.1 commitSimple.2 commitCalls).1
                h').1 =
              (q.run byteCodec (cachedCalls byteCodec commitSimple.1 commitSimple.2 commitCalls).1
                (cachedCalls byteCodec commitSimple.1 commitSimple.2 commitCalls).2).1 :=
  ⟨fun _ => rfl, fun _ => rfl, fun _ => rfl, by decide, by decide, by decide,
    persist_newCached_commits byteCodec (fun _ => rfl) (fun _ => rfl) (fun _ => rfl) (by decide)
      (by decide) (by decide) commitCalls⟩

end NeoGo.Dao
