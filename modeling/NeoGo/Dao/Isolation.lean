import NeoGo.Dao.Commit
import NeoGo.Dao.Storage

/-! # A contract's storage is its own

A contract's items sit under `storagePrefix || u32-LE(id) || key` (`makeStorageItemKey`).
Every other write of the DAO interface puts or deletes a key outside that range: accounts,
contracts, balances and transfer logs have prefixes of their own, which the storage prefix is
not, and another contract's items have another id in the four bytes after the prefix. A
`Cached` keeps most records in its caches and passes the contract and storage writes down to
the `Simple` at its bottom; a read fills at most a contract cache. So a run of calls through
any DAO that puts and deletes no item of contract `id` leaves `id`'s storage reading as it
did: every item (`GetStorageItem`) and every listing by prefix (`GetStorageItemsWithPrefix`,
through `Seek`).
-/

namespace NeoGo.Dao

variable {A C N : Type}

/-! ## Listings that agree under a prefix -/

theorem bytesLE_antisymm : ∀ {a b : Bytes}, bytesLE a b → bytesLE b a → a = b
  | [], [], _, _ => rfl
  | [], _ :: _, _, hba => by simp [bytesLE] at hba
  | _ :: _, [], hab, _ => by simp [bytesLE] at hab
  | x :: as, y :: bs, hab, hba => by
    simp only [bytesLE, Bool.or_eq_true, decide_eq_true_eq, Bool.and_eq_true, beq_iff_eq] at hab hba
    rcases hab with hxy | ⟨rfl, has⟩
    · rcases hba with hyx | ⟨rfl, -⟩
      · exact absurd (UInt8.lt_trans hxy hyx) (Nat.lt_irrefl _)
      · exact absurd hxy (Nat.lt_irrefl _)
    · rcases hba with hxx | ⟨-, hbs⟩
      · exact absurd hxx (Nat.lt_irrefl _)
      · rw [bytesLE_antisymm has hbs]

theorem Heap.seek_congr {h h' : Heap A C N} {chain chain' : List Nat} {pfx : Bytes}
    (hg : ∀ k, pfx <+: k → h.get chain k = h'.get chain' k) :
    h.seek chain pfx = h'.seek chain' pfx := by
  have : IsAntisymm (Bytes × Bytes) fun a b => bytesLE a.1 b.1 ∧ a.1 ≠ b.1 :=
    ⟨fun _ _ hab hba => absurd (bytesLE_antisymm hab.1 hba.1) hab.2⟩
  have hnd : ∀ (h : Heap A C N) chain, (h.seek chain pfx).Nodup := fun h chain =>
    (h.seek_sorted chain pfx).imp fun hab e => hab.2 (congrArg Prod.fst e)
  refine List.eq_of_perm_of_sorted ?_ (h.seek_sorted chain pfx) (h'.seek_sorted chain' pfx)
  refine (List.perm_ext_iff_of_nodup (hnd h chain) (hnd h' chain')).mpr fun kv => ?_
  rw [Heap.mem_seek, Heap.mem_seek]
  exact and_congr_right fun hp => by rw [hg _ hp]

/-! ## The keys of one contract -/

/-- Whether a write puts or deletes an item of contract `id`. -/
def Write.writesStorageOf (id : UInt32) : Write A C N → Bool
  | .putStorageItem id' .. | .deleteStorageItem id' .. => id' == id
  | _ => false

/-- Whether a call puts or deletes an item of contract `id`; a read does not. -/
def Call.writesStorageOf (id : UInt32) : Call A C N → Bool
  | .read _ => false
  | .write w => w.writesStorageOf id

namespace Simple

variable {id : UInt32} {p : UInt8} {k : Bytes}

theorem ne_of_storage_key {q : UInt8} (hq : q ≠ p) (hk : makeStorageItemKey p id [] <+: k)
    (b : Bytes) : q :: b ≠ k := by
  obtain ⟨t, rfl⟩ := hk
  exact fun e => hq (List.cons.inj e).1

theorem makeStorageItemKey_ne_of_id {id' : UInt32} (hid : id' ≠ id)
    (hk : makeStorageItemKey p id [] <+: k) (key : Bytes) : makeStorageItemKey p id' key ≠ k := by
  obtain ⟨t, rfl⟩ := hk
  intro e
  simp only [makeStorageItemKey, List.append_nil, List.cons_append, List.cons.injEq,
    true_and] at e
  exact hid (le32_injective (List.append_inj e (by simp)).1)

end Simple

/-! ## Each call leaves the contract's keys alone -/

section Frame

variable (c : StateCodec A C N) {id : UInt32} {k : Bytes}

@[simp] theorem DAO.get_getContractState (chain : List Nat) (key hash : Bytes) :
    ∀ (d : DAO) (h : Heap A C N), (d.getContractState c h hash).2.get chain key = h.get chain key
  | .simple _, _ => rfl
  | .cached d _ ct _ _ _, h => by
    have ih := DAO.get_getContractState chain key hash d h
    simp only [DAO.getContractState]
    split
    · rfl
    · split <;> simp only [Heap.get_setContract, ih]

/-- A write through a `Simple` that is no storage write of contract `id` leaves every key under
`id`'s items reading as before, when the storage prefix is none of the record prefixes. -/
theorem Write.get_run_simple {s : Simple}
    (hsp : ∀ p ∈ cachePrefixes, s.version.storagePrefix ≠ p.toByte) {w : Write A C N}
    (hw : w.writesStorageOf id = false)
    (hk : Simple.makeStorageItemKey s.version.storagePrefix id [] <+: k)
    (h : Heap A C N) (chain : List Nat) : (w.run c (.simple s) h).get chain k = h.get chain k := by
  have hne : ∀ p ∈ cachePrefixes, ∀ b, appendPrefix p b ≠ k :=
    fun p hp => Simple.ne_of_storage_key (hsp p hp).symm hk
  cases w with
  | putAccountState _ => exact h.get_write_ne _ _ (hne .stAccount (by decide) _) chain
  | putContractState _ => exact h.get_write_ne _ _ (hne .stContract (by decide) _) chain
  | deleteContractState _ => exact h.get_write_ne _ _ (hne .stContract (by decide) _) chain
  | putNEP5Balances _ _ => exact h.get_write_ne _ _ (hne .stNEP5Balances (by decide) _) chain
  | putNEP5TransferLog _ _ _ =>
    exact h.get_write_ne _ _ (hne .stNEP5Transfers (by decide) _) chain
  | putStorageItem id' key _ =>
    have hid : id' ≠ id := by simpa [Write.writesStorageOf] using hw
    exact h.get_write_ne _ _ (Simple.makeStorageItemKey_ne_of_id hid hk key) chain
  | deleteStorageItem id' key =>
    have hid : id' ≠ id := by simpa [Write.writesStorageOf] using hw
    exact h.get_write_ne _ _ (Simple.makeStorageItemKey_ne_of_id hid hk key) chain

/-- The step lemma for writes: through any DAO, one layer of `Cached` at a time. -/
theorem Write.get_run {w : Write A C N} (hw : w.writesStorageOf id = false) (chain : List Nat) :
    ∀ d : DAO, (∀ p ∈ cachePrefixes, d.bottom.version.storagePrefix ≠ p.toByte) →
      Simple.makeStorageItemKey d.bottom.version.storagePrefix id [] <+: k →
      ∀ h : Heap A C N, (w.run c d h).get chain k = h.get chain k
  | .simple _, hsp, hk, h => Write.get_run_simple c hsp hw hk h chain
  | .cached d .., hsp, hk, h => by
    have ih := Write.get_run hw chain d hsp hk
    cases w with
    | putAccountState _ => exact Heap.get_setAccount ..
    | putContractState _ => exact (ih _).trans (Heap.get_setContract ..)
    | deleteContractState _ => exact (ih _).trans (Heap.get_setContract ..)
    | putNEP5Balances _ _ => exact Heap.get_setBalances ..
    | putNEP5TransferLog _ _ _ => exact DAO.get_setTransfers ..
    | putStorageItem _ _ _ => exact ih h
    | deleteStorageItem _ _ => exact ih h

theorem Call.get_run {d : DAO}
    (hsp : ∀ p ∈ cachePrefixes, d.bottom.version.storagePrefix ≠ p.toByte)
    (hk : Simple.makeStorageItemKey d.bottom.version.storagePrefix id [] <+: k) (chain : List Nat)
    {op : Call A C N} (hop : op.writesStorageOf id = false) (h : Heap A C N) :
    (op.run c d h).get chain k = h.get chain k := by
  cases op with
  | read q => cases q <;> first | rfl | exact DAO.get_getContractState c chain k _ d h
  | write w => exact Write.get_run c hop chain d hsp hk h

theorem DAO.get_calls {d : DAO}
    (hsp : ∀ p ∈ cachePrefixes, d.bottom.version.storagePrefix ≠ p.toByte)
    (hk : Simple.makeStorageItemKey d.bottom.version.storagePrefix id [] <+: k) (chain : List Nat) :
    ∀ (ops : List (Call A C N)), (∀ op ∈ ops, op.writesStorageOf id = false) →
      ∀ h : Heap A C N, (d.calls c ops h).get chain k = h.get chain k
  | [], _, _ => rfl
  | op :: ops, hops, h =>
    (DAO.get_calls hsp hk chain ops (fun op hm => hops op (List.mem_cons_of_mem _ hm))
      (op.run c d h)).trans (Call.get_run c hsp hk chain (hops op (List.mem_cons_self _ _)) h)

end Frame

theorem DAO.getStorageItem_bottom (h : Heap A C N) (id : UInt32) (key : Bytes) :
    ∀ d : DAO, d.getStorageItem h id key = d.bottom.getStorageItem h id key
  | .simple _ => rfl
  | .cached d .. => DAO.getStorageItem_bottom h id key d

/-- **A contract's storage changes only by its own storage writes.** Through any DAO whose
`Simple` keeps its storage prefix apart from the record prefixes, calls that put and delete
no item of contract `id` leave every item of `id` reading as before, and
`GetStorageItemsWithPrefix` giving the same items in the same order under every prefix. -/
theorem DAO.calls_storage_isolated (c : StateCodec A C N) (d : DAO) (h : Heap A C N)
    (id : UInt32) (ops : List (Call A C N))
    (hsp : ∀ p ∈ cachePrefixes, d.bottom.version.storagePrefix ≠ p.toByte)
    (hops : ∀ op ∈ ops, op.writesStorageOf id = false) :
    (∀ key, d.getStorageItem (d.calls c ops h) id key = d.getStorageItem h id key) ∧
      ∀ pfx, d.bottom.getStorageItemsWithPrefix (d.calls c ops h) id pfx =
        d.bottom.getStorageItemsWithPrefix h id pfx := by
  have hrun : ∀ k, Simple.makeStorageItemKey d.bottom.version.storagePrefix id [] <+: k →
      (d.calls c ops h).get d.bottom.chain k = h.get d.bottom.chain k :=
    fun k hk => DAO.get_calls c hsp hk _ ops hops h
  refine ⟨fun key => ?_, fun pfx => ?_⟩
  · rw [DAO.getStorageItem_bottom, DAO.getStorageItem_bottom]
    exact hrun _ ⟨key, by simp [Simple.makeStorageItemKey]⟩
  · simp only [Simple.getStorageItemsWithPrefix, Simple.seek]
    rw [Heap.seek_congr fun k hk => hrun k ((List.prefix_append _ _).trans hk)]

/-- Contract 0's items `[2] ↦ [9]` and `[5] ↦ [8]`, put through the chain's DAO. -/
def itemsHeap : Heap UInt8 UInt8 UInt8 :=
  chainDAO.1.calls byteCodec
    [.write (.putStorageItem 0 [2] [9]), .write (.putStorageItem 0 [5] [8])] chainDAO.2

/-- Calls of every kind, with items of contract 1 put and deleted under contract 0's keys. -/
def isolationCalls : List (Call UInt8 UInt8 UInt8) :=
  [.write (.putAccountState 7), .write (.putContractState 3), .read (.getContractState [3]),
    .write (.putNEP5Balances [7] 2), .write (.putNEP5TransferLog [7] 0 [1, 2]),
    .write (.deleteContractState [3]), .write (.putStorageItem 1 [2] [3]),
    .write (.deleteStorageItem 1 [5])]

/-- Contract 0's two items survive the calls, one by one and as a listing. -/
theorem calls_storage_isolated_on_itemsHeap :
    (∀ p ∈ cachePrefixes, chainDAO.1.bottom.version.storagePrefix ≠ p.toByte) ∧
      (∀ op ∈ isolationCalls, op.writesStorageOf 0 = false) ∧
      chainDAO.1.bottom.getStorageItemsWithPrefix itemsHeap 0 [] = [([2], [9]), ([5], [8])] ∧
      (∀ key, chainDAO.1.getStorageItem
          (chainDAO.1.calls byteCodec isolationCalls itemsHeap) 0 key =
        chainDAO.1.getStorageItem itemsHeap 0 key) ∧
        ∀ pfx, chainDAO.1.bottom.getStorageItemsWithPrefix
            (chainDAO.1.calls byteCodec isolationCalls itemsHeap) 0 pfx =
          chainDAO.1.bottom.getStorageItemsWithPrefix itemsHeap 0 pfx :=
  ⟨by decide, by decide, by decide,
    DAO.calls_storage_isolated byteCodec chainDAO.1 itemsHeap 0 isolationCalls (by decide)
      (by decide)⟩

end NeoGo.Dao
