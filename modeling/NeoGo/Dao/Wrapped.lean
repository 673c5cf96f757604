import NeoGo.Dao.Dao

/-! # What a wrapped DAO shares with the DAO it wraps

`d.GetWrapped()` is the transactional scope of the chain: writes go to the wrapped DAO `w`
and reach `d` only when `w` is persisted. Everything `d` reads, and everything `d.Persist`
writes, is in objects numbered below the heap's bound when `w` was made (`DAO.Below`), so it
is enough that `w`'s writes leave those objects alone.

They do when `d` is a `Simple`: all of `w` is then one new store layer. They do not when `d`
is a `Cached`: `GetWrapped` hands the new `Cached` the same four cache maps, and every write
of an account, contract, balances or transfer log through `w` lands in a map `d` reads and
persists. Only the storage item writes, which go through to `w`'s new store, stay in `w`.
-/

namespace NeoGo.Dao

variable {A C N : Type}

/-! ## Reads and writes as data -/

/-- The reads of the DAO interface that the model has. -/
inductive Read where
  | getAccountState (hash : Bytes)
  | getContractState (hash : Bytes)
  | getNEP5Balances (acc : Bytes)
  | getNEP5TransferLog (acc : Bytes) (index : UInt32)
  | getStorageItem (id : UInt32) (key : Bytes)

/-- What a read returns. -/
inductive Answer (A C N : Type) where
  | account (r : Except DaoError A)
  | contract (r : Except DaoError C)
  | balances (r : Except DaoError N)
  | transferLog (lg : Bytes)
  | storageItem (si : Option Bytes)

/-- A read, with the heap after it (`GetContractState` fills the contract cache). -/
def Read.run (c : StateCodec A C N) : Read → DAO → Heap A C N → Answer A C N × Heap A C N
  | .getAccountState hash, d, h => (.account (d.getAccountState c h hash), h)
  | .getContractState hash, d, h =>
    let (r, h) := d.getContractState c h hash
    (.contract r, h)
  | .getNEP5Balances acc, d, h => (.balances (d.getNEP5Balances c h acc), h)
  | .getNEP5TransferLog acc index, d, h => (.transferLog (d.getNEP5TransferLog h acc index), h)
  | .getStorageItem id key, d, h => (.storageItem (d.getStorageItem h id key), h)

/-- The writes of the DAO interface that the model has. -/
inductive Write (A C N : Type) where
  | putAccountState (a : A)
  | putContractState (cs : C)
  | deleteContractState (hash : Bytes)
  | putNEP5Balances (acc : Bytes) (bs : N)
  | putNEP5TransferLog (acc : Bytes) (index : UInt32) (lg : Bytes)
  | putStorageItem (id : UInt32) (key si : Bytes)
  | deleteStorageItem (id : UInt32) (key : Bytes)

namespace Write

/-- A write on a DAO. -/
def run (c : StateCodec A C N) : Write A C N → DAO → Heap A C N → Heap A C N
  | .putAccountState a, d, h => d.putAccountState c h a
  | .putContractState cs, d, h => d.putContractState c h cs
  | .deleteContractState hash, d, h => d.deleteContractState h hash
  | .putNEP5Balances acc bs, d, h => d.putNEP5Balances c h acc bs
  | .putNEP5TransferLog acc index lg, d, h => d.putNEP5TransferLog h acc index lg
  | .putStorageItem id key si, d, h => d.putStorageItem h id key si
  | .deleteStorageItem id key, d, h => d.deleteStorageItem h id key

/-- The writes that a `Cached` makes in its caches: all but the storage item ones. -/
def touchesCaches : Write A C N → Bool
  | .putStorageItem .. | .deleteStorageItem .. => false
  | _ => true

end Write

namespace DAO

/-- Writes on `w`, in order. -/
def writes (c : StateCodec A C N) (w : DAO) (ws : List (Write A C N)) (h : Heap A C N) :
    Heap A C N :=
  ws.foldl (fun h op => op.run c w h) h

/-- Every object the DAO refers to is numbered below `n`. -/
def Below (n : Nat) : DAO → Prop
  | .simple s => ∀ i ∈ s.chain, i < n
  | .cached d accounts contracts balances transfers _ =>
    d.Below n ∧ accounts < n ∧ contracts < n ∧ balances < n ∧ transfers < n

instance decBelow (n : Nat) : (d : DAO) → Decidable (d.Below n)
  | .simple s => inferInstanceAs (Decidable (∀ i ∈ s.chain, i < n))
  | .cached d .. => have := decBelow n d; inferInstanceAs (Decidable (_ ∧ _))

/-- The store layer at the top of the DAO's chain, where its store writes go. -/
def top : DAO → Nat
  | .simple s => s.store
  | .cached d .. => d.top

/-- Whether the DAO is a `Simple`. -/
def isSimple : DAO → Bool
  | .simple _ => true
  | .cached .. => false

end DAO

/-! ## Reads and `Persist` see only the objects of the DAO -/

section Frame

variable (c : StateCodec A C N) {n : Nat} {h h' : Heap A C N}

namespace Simple

theorem getAndDecode_congr (e : AgreeBelow n h h') {s : Simple} (hs : ∀ i ∈ s.chain, i < n)
    {α : Type} (decode : Bytes → Option α) (key : Bytes) :
    s.getAndDecode h decode key = s.getAndDecode h' decode key := by
  simp only [getAndDecode, e.get hs]

/-- The caches of a `Cached` written into a `Simple`, all below `n`, write the same. -/
theorem flushCaches_congr (e : AgreeBelow n h h') (s : Simple)
    {accounts balances transfers : Nat} (ha : accounts < n) (hb : balances < n)
    (ht : transfers < n) :
    AgreeBelow n (DAO.flushCaches c s accounts balances transfers h)
      (DAO.flushCaches c s accounts balances transfers h') := by
  have logs : ∀ {h h' : Heap A C N} (x : Bytes × GoMap UInt32 Bytes), AgreeBelow n h h' →
      AgreeBelow n (x.2.foldl (fun h l => s.putNEP5TransferLog h x.1 l.1 l.2) h)
        (x.2.foldl (fun h l => s.putNEP5TransferLog h x.1 l.1 l.2) h') := fun x e =>
    .foldl (fun h (l : UInt32 × Bytes) => s.putNEP5TransferLog h x.1 l.1 l.2)
      (fun _ e => e.write _ _ _) x.2 e
  unfold DAO.flushCaches
  exact .foldl_read _ logs (·.transfers transfers) (fun e => e.transfers transfers ht) <|
    .foldl_read (fun h (x : Bytes × N) => s.putNEP5Balances c h x.1 x.2)
      (fun _ e => e.write _ _ _) (·.balances balances) (fun e => e.balances balances hb) <|
    .foldl_read (fun h (x : Bytes × A) => s.putAccountState c h x.2)
      (fun _ e => e.write _ _ _) (·.accounts accounts) (fun e => e.accounts accounts ha) e

end Simple

namespace DAO

theorem getAccountState_congr (e : AgreeBelow n h h') :
    ∀ {d : DAO}, d.Below n → ∀ hash, d.getAccountState c h hash = d.getAccountState c h' hash
  | .simple _, hd, _ => Simple.getAndDecode_congr e hd _ _
  | .cached d accounts _ _ _ _, ⟨hd, ha, _⟩, hash => by
    simp only [getAccountState, e.accounts accounts ha, getAccountState_congr e hd hash]

theorem getContractState_congr (e : AgreeBelow n h h') :
    ∀ {d : DAO}, d.Below n → ∀ hash,
      (d.getContractState c h hash).1 = (d.getContractState c h' hash).1 ∧
      AgreeBelow n (d.getContractState c h hash).2 (d.getContractState c h' hash).2
  | .simple _, hd, _ => ⟨Simple.getAndDecode_congr e hd _ _, e⟩
  | .cached d _ contracts _ _ _, ⟨hd, _, hc, _⟩, hash => by
    have ih := getContractState_congr e hd hash
    simp only [getContractState, e.contracts contracts hc]
    split
    · exact ⟨rfl, e⟩
    · revert ih
      rcases d.getContractState c h hash with ⟨r, h₁⟩
      rcases d.getContractState c h' hash with ⟨r', h₁'⟩
      rintro ⟨rfl : r = r', e₁⟩
      cases r
      · exact ⟨rfl, e₁⟩
      · exact ⟨rfl, e₁.setContract _ _ _⟩

theorem getNEP5Balances_congr (e : AgreeBelow n h h') :
    ∀ {d : DAO}, d.Below n → ∀ acc, d.getNEP5Balances c h acc = d.getNEP5Balances c h' acc
  | .simple _, hd, _ => by simp only [getNEP5Balances, Simple.getNEP5Balances,
      Simple.getAndDecode_congr e hd]
  | .cached d _ _ balances _ _, ⟨hd, _, _, hb, _⟩, acc => by
    simp only [getNEP5Balances, e.balances balances hb, getNEP5Balances_congr e hd acc]

theorem getNEP5TransferLog_congr (e : AgreeBelow n h h') :
    ∀ {d : DAO}, d.Below n → ∀ acc index,
      d.getNEP5TransferLog h acc index = d.getNEP5TransferLog h' acc index
  | .simple _, hd, _, _ => by simp only [getNEP5TransferLog, Simple.getNEP5TransferLog, e.get hd]
  | .cached d _ _ _ transfers _, ⟨hd, _, _, _, ht⟩, acc, index => by
    simp only [getNEP5TransferLog, e.transfers transfers ht, getNEP5TransferLog_congr e hd acc index]

theorem getStorageItem_congr (e : AgreeBelow n h h') :
    ∀ {d : DAO}, d.Below n → ∀ id key, d.getStorageItem h id key = d.getStorageItem h' id key
  | .simple _, hd, _, _ => e.get hd _
  | .cached .., ⟨hd, _⟩, id, key => getStorageItem_congr e hd id key

end DAO

/-- **A read on a DAO below `n` depends only on the objects below `n`**, and changes them
alike. -/
theorem Read.run_congr (e : AgreeBelow n h h') {d : DAO} (hd : d.Below n) (q : Read) :
    (q.run c d h).1 = (q.run c d h').1 ∧ AgreeBelow n (q.run c d h).2 (q.run c d h').2 := by
  cases q with
  | getAccountState hash => exact ⟨by simp [run, DAO.getAccountState_congr c e hd], e⟩
  | getContractState hash =>
    obtain ⟨h₁, h₂⟩ := DAO.getContractState_congr c e hd hash
    exact ⟨by simp [run, h₁], h₂⟩
  | getNEP5Balances acc => exact ⟨by simp [run, DAO.getNEP5Balances_congr c e hd], e⟩
  | getNEP5TransferLog acc index => exact ⟨by simp [run, DAO.getNEP5TransferLog_congr e hd], e⟩
  | getStorageItem id key => exact ⟨by simp [run, DAO.getStorageItem_congr e hd], e⟩

/-- What `Persist` reports and leaves below `n`. -/
def PersistAgree (n : Nat) : Option (Nat × DAO × Heap A C N) → Option (Nat × DAO × Heap A C N) → Prop :=
  Option.Rel fun r r' => r.1 = r'.1 ∧ AgreeBelow n r.2.2 r'.2.2

theorem Simple.persist_congr (e : AgreeBelow n h h') {s : Simple} (hs : ∀ i ∈ s.chain, i < n) :
    (s.persist h).1 = (s.persist h').1 ∧ AgreeBelow n (s.persist h).2 (s.persist h').2 :=
  e.flush (hs _ (List.mem_cons_self _ _)) (hs _ (List.mem_cons_of_mem _ (List.mem_cons_self _ _)))

/-- **`Persist` of a DAO below `n` counts and writes the same** on heaps that agree below
`n`; the balances cache it may make for the lower `Cached` is above both bounds. -/
theorem DAO.persist_congr (e : AgreeBelow n h h') {d : DAO} (hd : d.Below n)
    (hn : n ≤ h.next) (hn' : n ≤ h'.next) : PersistAgree n (d.persist c h) (d.persist c h') := by
  match d, hd with
  | .simple s, hd =>
    obtain ⟨h₁, h₂⟩ := Simple.persist_congr e hd
    exact .some ⟨h₁, h₂⟩
  | .cached (.cached (.simple s) _ _ _ _ _) _ _ _ _ drop, ⟨⟨hs, _⟩, _⟩ =>
    cases drop
    · obtain ⟨h₁, h₂⟩ := Simple.persist_congr e hs
      exact .some ⟨h₁, h₂⟩
    · have e₁ := (AgreeBelow.newCaches h hn).trans (e.trans (AgreeBelow.newCaches h' hn').symm)
      obtain ⟨h₁, h₂⟩ := Simple.persist_congr e₁ hs
      exact .some ⟨h₁, h₂⟩
  | .cached (.cached (.cached ..) ..) .., _ => exact .none
  | .cached (.simple s) _ _ _ _ _, ⟨hs, ha, _, hb, ht⟩ =>
    have e₁ := Simple.flushCaches_congr c e s ha hb ht
    obtain ⟨h₁, h₂⟩ := Simple.persist_congr e₁ hs
    exact .some ⟨h₁, h₂⟩

end Frame

/-! ## Writes through the wrapped DAO -/

section Writes

variable (c : StateCodec A C N) {n : Nat}

namespace DAO

theorem putStorageItem_above (h : Heap A C N) (id : UInt32) (key si : Bytes) :
    ∀ w : DAO, n ≤ w.top → AgreeBelow n (w.putStorageItem h id key si) h
  | .simple _, hw => AgreeBelow.write_above h hw _ _
  | .cached w .., hw => putStorageItem_above h id key si w hw

theorem deleteStorageItem_above (h : Heap A C N) (id : UInt32) (key : Bytes) :
    ∀ w : DAO, n ≤ w.top → AgreeBelow n (w.deleteStorageItem h id key) h
  | .simple _, hw => AgreeBelow.write_above h hw _ _
  | .cached w .., hw => deleteStorageItem_above h id key w hw

end DAO

/-- **A write on a `Simple` from `n` on, or a storage item write on any DAO whose top layer
is from `n` on, leaves the heap as it was below `n`.** -/
theorem Write.run_above (h : Heap A C N) {w : DAO} (hw : n ≤ w.top) (op : Write A C N)
    (hs : w.isSimple = true ∨ op.touchesCaches = false) : AgreeBelow n (op.run c w h) h := by
  cases op with
  | putStorageItem id key si => exact DAO.putStorageItem_above h id key si _ hw
  | deleteStorageItem id key => exact DAO.deleteStorageItem_above h id key _ hw
  | _ =>
    obtain ⟨s⟩ | ⟨⟩ := w
    · exact AgreeBelow.write_above h hw _ _
    · simp [DAO.isSimple, Write.touchesCaches] at hs

theorem DAO.writes_above {w : DAO} (hw : n ≤ w.top) :
    ∀ (ws : List (Write A C N)) (h : Heap A C N),
      (w.isSimple = true ∨ ∀ op ∈ ws, op.touchesCaches = false) →
      AgreeBelow n (w.writes c ws h) h
  | [], h, _ => AgreeBelow.refl h
  | op :: ws, h, hs =>
    have e₁ := Write.run_above c h hw op (hs.imp_right fun hs => hs op (List.mem_cons_self _ _))
    (writes_above hw ws _ (hs.imp_right fun hs op hop => hs op (List.mem_cons_of_mem _ hop))).trans e₁

@[simp] theorem Write.run_next (h : Heap A C N) (op : Write A C N) (w : DAO) :
    (op.run c w h).next = h.next := by
  cases op <;> induction w generalizing h <;>
    simp_all [run, DAO.putAccountState, DAO.putContractState, DAO.deleteContractState,
      DAO.putNEP5Balances, DAO.putNEP5TransferLog, DAO.putStorageItem, DAO.deleteStorageItem,
      Simple.putAccountState, Simple.putContractState, Simple.deleteContractState,
      Simple.putNEP5Balances, Simple.putNEP5TransferLog, Simple.putStorageItem,
      Simple.deleteStorageItem, Simple.put, Simple.delete, Heap.write, Heap.setAccount,
      Heap.setContract, Heap.setBalances, Heap.setTransfers]

theorem DAO.writes_next (w : DAO) :
    ∀ (ws : List (Write A C N)) (h : Heap A C N), (w.writes c ws h).next = h.next
  | [], _ => rfl
  | op :: ws, h => (writes_next w ws _).trans (Write.run_next c h op w)

end Writes

/-! ## `GetWrapped` -/

namespace DAO

variable {h : Heap A C N}

theorem getWrapped_top : ∀ d : DAO, (d.getWrapped h).1.top = h.next
  | .simple _ => rfl
  | .cached d .. => getWrapped_top d

theorem getWrapped_isSimple : ∀ d : DAO, (d.getWrapped h).1.isSimple = d.isSimple
  | .simple _ => rfl
  | .cached .. => rfl

theorem getWrapped_next : ∀ d : DAO, (d.getWrapped h).2.next = h.next + 1
  | .simple _ => rfl
  | .cached d .. => getWrapped_next d

theorem getWrapped_agree {n : Nat} (hn : n ≤ h.next) :
    ∀ d : DAO, AgreeBelow n (d.getWrapped h).2 h
  | .simple _ => AgreeBelow.newStore h hn
  | .cached d .. => getWrapped_agree hn d

end DAO

/-- **Writes through `d.GetWrapped()` are invisible to `d`** when `d` is a `Simple`, or when
they only put and delete storage items: after them every read on `d` answers as before `w`
was made, and `d.Persist` counts the same and writes the same into every object that existed
before. -/
theorem getWrapped_isolated (c : StateCodec A C N) {d : DAO} {h₀ : Heap A C N}
    (hd : d.Below h₀.next) (ws : List (Write A C N))
    (hws : d.isSimple = true ∨ ∀ op ∈ ws, op.touchesCaches = false) :
    (∀ q : Read,
      (q.run c d ((d.getWrapped h₀).1.writes c ws (d.getWrapped h₀).2)).1 = (q.run c d h₀).1) ∧
    PersistAgree h₀.next (d.persist c ((d.getWrapped h₀).1.writes c ws (d.getWrapped h₀).2))
      (d.persist c h₀) := by
  have e : AgreeBelow h₀.next ((d.getWrapped h₀).1.writes c ws (d.getWrapped h₀).2) h₀ :=
    (DAO.writes_above c (Nat.le_of_eq (DAO.getWrapped_top d).symm) ws _
      (by rwa [DAO.getWrapped_isSimple])).trans (DAO.getWrapped_agree (Nat.le_refl _) d)
  refine ⟨fun q => (Read.run_congr c e hd q).1, DAO.persist_congr c e hd ?_ (Nat.le_refl _)⟩
  rw [DAO.writes_next, DAO.getWrapped_next]
  exact Nat.le_succ _

/-- A codec for the examples: every object is one byte, which is also its script hash. -/
def byteCodec : StateCodec UInt8 UInt8 UInt8 where
  accountHash a := [a]
  encodeAccount a := [a]
  decodeAccount := List.head?
  contractHash cs := [cs]
  encodeContract cs := [cs]
  decodeContract := List.head?
  encodeBalances bs := [bs]
  decodeBalances := List.head?
  newBalances := 0

/-- An empty heap with one backing store, numbered 0. -/
def emptyHeap : Heap UInt8 UInt8 UInt8 :=
  ⟨fun _ => [], fun _ => [], fun _ => [], fun _ => [], fun _ => [], 1⟩

/-- `NewCached(NewSimple(store))`, the DAO the chain keeps over its store. -/
def chainDAO : DAO × Heap UInt8 UInt8 UInt8 :=
  DAO.newCached (.simple (newSimple 0 [] false false emptyHeap).1)
    (newSimple 0 [] false false emptyHeap).2

theorem getWrapped_isolated_of_storage_writes :
    let d := chainDAO.1
    let h₀ := chainDAO.2
    let ws : List (Write UInt8 UInt8 UInt8) := [.putStorageItem 1 [2] [3], .deleteStorageItem 1 [4]]
    d.Below h₀.next ∧
    (∀ q : Read,
      (q.run byteCodec d ((d.getWrapped h₀).1.writes byteCodec ws (d.getWrapped h₀).2)).1 =
        (q.run byteCodec d h₀).1) ∧
    PersistAgree h₀.next (d.persist byteCodec ((d.getWrapped h₀).1.writes byteCodec ws (d.getWrapped h₀).2))
      (d.persist byteCodec h₀) := by
  intro d h₀ ws
  exact ⟨by decide, getWrapped_isolated byteCodec (by decide) ws (Or.inr (by decide))⟩

/-- **An account written through the wrapped DAO of a `Cached` is read and persisted by the
`Cached`**: before, it reads `ErrKeyNotFound` and its `Persist` leaves the store without the
account. -/
theorem getWrapped_cached_shares_accounts :
    let d := chainDAO.1
    let h₀ := chainDAO.2
    let h := (d.getWrapped h₀).1.writes byteCodec [.putAccountState 7] (d.getWrapped h₀).2
    d.getAccountState byteCodec h₀ [7] = .error .errKeyNotFound ∧
    d.getAccountState byteCodec h [7] = .ok 7 ∧
    (d.persist byteCodec h₀).map (·.2.2.get [1] (appendPrefix .stAccount [7])) = some none ∧
    (d.persist byteCodec h).map (·.2.2.get [1] (appendPrefix .stAccount [7])) = some (some [7]) :=
  ⟨rfl, rfl, rfl, rfl⟩

/-! ## Commit -/

theorem GoMap.get_foldr_set {K V : Type} [DecidableEq K] (mem base : GoMap K V) (k : K) :
    (mem.foldr (fun e m => m.set e.1 e.2) base).get k = (mem.get k).or (base.get k) := by
  induction mem with
  | nil => rfl
  | cons e mem ih =>
    by_cases hk : e.1 = k
    · subst hk
      rw [List.foldr_cons, GoMap.get_set_self]
      simp [GoMap.get]
    · rw [List.foldr_cons, GoMap.get_set_ne _ _ hk, ih]
      simp [GoMap.get, List.find?_cons, hk]

theorem Heap.get_congr {h h' : Heap A C N} {chain : List Nat}
    (hc : ∀ i ∈ chain, h.stores i = h'.stores i) (k : Bytes) : h.get chain k = h'.get chain k := by
  induction chain with
  | nil => rfl
  | cons i chain ih =>
    simp only [Heap.get, hc i (List.mem_cons_self _ _),
      ih fun j hj => hc j (List.mem_cons_of_mem _ hj)]

theorem Heap.flush_of_empty {h : Heap A C N} {i : Nat} (hi : h.stores i = []) (ps : Nat) :
    h.flush i ps = (0, h) := by
  have hu : Function.update h.stores i [] = h.stores := by
    rw [← hi]
    exact Function.update_eq_self _ _
  simp only [Heap.flush, hi, List.length_nil, List.foldr_nil, Function.update_eq_self, hu]

theorem Simple.persist_layer (s : Simple) (h : Heap A C N) : (s.persist h).2.stores s.store = [] := by
  simp [Simple.persist, Heap.flush]

/-- After `Persist`, the store below reads every key as the DAO read it before. -/
theorem Simple.get_persist_below {s : Simple} (hs : s.chain.Nodup) (h : Heap A C N) (k : Bytes) :
    (s.persist h).2.get (s.ps :: s.below) k = h.get s.chain k := by
  obtain ⟨hstore, hrest⟩ := List.nodup_cons.mp hs
  obtain ⟨hps, -⟩ := List.nodup_cons.mp hrest
  have hne : s.ps ≠ s.store := fun e => hstore (e ▸ List.mem_cons_self _ _)
  have hbelow : ∀ i ∈ s.below, (s.persist h).2.stores i = h.stores i := fun i hi => by
    have hi₁ : i ≠ s.store := fun e => hstore (e ▸ List.mem_cons_of_mem _ hi)
    have hi₂ : i ≠ s.ps := fun e => hps (e ▸ hi)
    simp only [Simple.persist, Heap.flush, Function.update_noteq hi₁, Function.update_noteq hi₂]
  simp only [Heap.get, Simple.chain, Heap.get_congr hbelow]
  simp only [Simple.persist, Heap.flush, Function.update_noteq hne, Function.update_same,
    GoMap.get_foldr_set]
  cases (h.stores s.store).get k <;> rfl

theorem Simple.get_persist {s : Simple} (hs : s.chain.Nodup) (h : Heap A C N) (k : Bytes) :
    (s.persist h).2.get s.chain k = h.get s.chain k := by
  rw [← Simple.get_persist_below hs h k, Simple.chain, Heap.get, Simple.persist_layer, GoMap.get_nil]

/-- **`Persist` commits.** After it, the store below reads every key as the DAO read it (for a
wrapped DAO, the DAO it wraps), the DAO reads every key as before, and a second `Persist`
writes nothing and changes nothing. The DAO's layers are distinct stores. -/
theorem Simple.persist_commits (s : Simple) (h : Heap A C N) (hs : s.chain.Nodup) :
    (∀ k, (s.persist h).2.get (s.ps :: s.below) k = h.get s.chain k) ∧
      (∀ k, (s.persist h).2.get s.chain k = h.get s.chain k) ∧
      s.persist (s.persist h).2 = (0, (s.persist h).2) :=
  ⟨Simple.get_persist_below hs h, Simple.get_persist hs h,
    Heap.flush_of_empty (Simple.persist_layer s h) _⟩

/-- A storage item put through the DAO that a `Simple` over the empty store wraps. -/
def wrappedPut : Simple × Heap UInt8 UInt8 UInt8 :=
  let d := newSimple 0 [] false false emptyHeap
  let w := d.1.getWrapped d.2
  (w.1, w.1.putStorageItem w.2 1 [2] [3])

/-- The wrapped DAO's put, committed into the `Simple` it wraps. -/
theorem persist_commits_on_wrappedPut :
    wrappedPut.1.chain.Nodup ∧
      (∀ k, (wrappedPut.1.persist wrappedPut.2).2.get (wrappedPut.1.ps :: wrappedPut.1.below) k =
        wrappedPut.2.get wrappedPut.1.chain k) ∧
      (∀ k, (wrappedPut.1.persist wrappedPut.2).2.get wrappedPut.1.chain k =
        wrappedPut.2.get wrappedPut.1.chain k) ∧
      wrappedPut.1.persist (wrappedPut.1.persist wrappedPut.2).2 =
        (0, (wrappedPut.1.persist wrappedPut.2).2) :=
  ⟨by decide, Simple.persist_commits _ _ (by decide)⟩

end NeoGo.Dao
