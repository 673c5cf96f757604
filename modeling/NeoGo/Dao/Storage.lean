import NeoGo.Dao.Layers

/-! # Contract storage and the store's `Seek`

A contract's storage item lives under `storagePrefix || u32-LE(id) || key`. `Seek(id, prefix,
f)` asks the store for every key beginning with `storagePrefix || u32-LE(id) || prefix` and
gives `f` each one with that whole lookup key cut off, and its value;
`GetStorageItemsWithPrefix` collects what `f` is given.

The store's `Seek` visits its keys once each, in ascending byte order (`Heap.seek_sorted`),
and exactly the keys that read a value (`Heap.mem_seek`). Because the lookup key has a fixed
width before the caller's prefix, cutting it off keeps the order, and the pairs `f` sees are
exactly the items `GetStorageItem` reads for that contract under the prefix
(`seek_storage_items`).
-/

namespace NeoGo.Dao

/-! ## The byte order -/

theorem byte_lt_trichotomy (a b : UInt8) : a < b ∨ a = b ∨ b < a := by
  rcases Nat.lt_trichotomy a.toNat b.toNat with h | h | h
  · exact Or.inl h
  · exact Or.inr (Or.inl (UInt8.toNat.inj h))
  · exact Or.inr (Or.inr h)

theorem bytesLE_trans : ∀ {a b c : Bytes}, bytesLE a b → bytesLE b c → bytesLE a c
  | [], _, _, _, _ => rfl
  | _ :: _, [], _, hab, _ => by simp [bytesLE] at hab
  | _ :: _, _ :: _, [], _, hbc => by simp [bytesLE] at hbc
  | x :: as, y :: bs, z :: cs, hab, hbc => by
    simp only [bytesLE, Bool.or_eq_true, decide_eq_true_eq, Bool.and_eq_true, beq_iff_eq] at hab hbc ⊢
    rcases hab with hxy | ⟨rfl, has⟩ <;> rcases hbc with hyz | ⟨rfl, hbs⟩
    · exact Or.inl (UInt8.lt_trans hxy hyz)
    · exact Or.inl hxy
    · exact Or.inl hyz
    · exact Or.inr ⟨rfl, bytesLE_trans has hbs⟩

theorem bytesLE_total : ∀ a b : Bytes, bytesLE a b ∨ bytesLE b a
  | [], _ => Or.inl rfl
  | _ :: _, [] => Or.inr rfl
  | x :: as, y :: bs => by
    simp only [bytesLE, Bool.or_eq_true, decide_eq_true_eq, Bool.and_eq_true, beq_iff_eq]
    rcases byte_lt_trichotomy x y with hxy | rfl | hyx
    · exact Or.inl (Or.inl hxy)
    · rcases bytesLE_total as bs with h | h
      · exact Or.inl (Or.inr ⟨rfl, h⟩)
      · exact Or.inr (Or.inr ⟨rfl, h⟩)
    · exact Or.inr (Or.inl hyx)

@[simp] theorem bytesLE_append_left (c a b : Bytes) : bytesLE (c ++ a) (c ++ b) = bytesLE a b := by
  induction c with
  | nil => rfl
  | cons x c ih => simp [bytesLE, ih]

instance isTotal_bytesLE : IsTotal Bytes fun a b => bytesLE a b := ⟨bytesLE_total⟩

instance isTrans_bytesLE : IsTrans Bytes fun a b => bytesLE a b := ⟨fun _ _ _ => bytesLE_trans⟩

/-! ## The store's `Seek` -/

theorem GoMap.mem_keys_of_get {V : Type} {m : GoMap Bytes V} {k : Bytes} {v : V}
    (hk : m.get k = some v) : k ∈ m.map Prod.fst := by
  obtain ⟨e, he, rfl⟩ := Option.map_eq_some'.mp hk
  exact List.mem_map.mpr ⟨e, List.mem_of_find?_eq_some he, by simpa using List.find?_some he⟩

namespace Heap

variable {A C N : Type} (h : Heap A C N)

theorem mem_keys_of_get {k v : Bytes} : ∀ {chain : List Nat}, h.get chain k = some v →
    k ∈ h.keys chain
  | [], hk => by cases hk
  | i :: chain, hk => by
    simp only [keys, List.mem_insertionSort, List.mem_dedup, List.mem_flatMap, List.mem_cons]
    simp only [get] at hk
    split at hk
    · exact ⟨i, Or.inl rfl, GoMap.mem_keys_of_get (by assumption)⟩
    · obtain ⟨j, hj, hkj⟩ := List.mem_flatMap.mp (List.mem_dedup.mp
        ((List.mem_insertionSort _).mp (mem_keys_of_get hk)))
      exact ⟨j, Or.inr hj, hkj⟩

theorem keys_sorted (chain : List Nat) : (h.keys chain).Pairwise fun a b => bytesLE a b ∧ a ≠ b :=
  (List.sorted_insertionSort _ _).and
    ((List.perm_insertionSort _ _).nodup_iff.mpr (List.nodup_dedup _))

theorem mem_seek {chain : List Nat} {pfx : Bytes} {kv : Bytes × Bytes} :
    kv ∈ h.seek chain pfx ↔ pfx <+: kv.1 ∧ h.get chain kv.1 = some kv.2 := by
  simp only [seek, List.mem_filterMap]
  constructor
  · rintro ⟨k, -, hk⟩
    split at hk
    · obtain ⟨v, hv, rfl⟩ := Option.map_eq_some'.mp hk
      exact ⟨List.isPrefixOf_iff_prefix.mp (by assumption), hv⟩
    · cases hk
  · rintro ⟨hp, hv⟩
    exact ⟨kv.1, h.mem_keys_of_get hv, by simp [List.isPrefixOf_iff_prefix.mpr hp, hv]⟩

theorem seek_sorted (chain : List Nat) (pfx : Bytes) :
    (h.seek chain pfx).Pairwise fun a b => bytesLE a.1 b.1 ∧ a.1 ≠ b.1 := by
  have hfst : ∀ k (x : Bytes × Bytes),
      x ∈ (if pfx.isPrefixOf k then (h.get chain k).map (k, ·) else none) → x.1 = k := by
    intro k x hx
    split at hx
    · obtain ⟨_, -, rfl⟩ := Option.map_eq_some'.mp hx
      rfl
    · cases hx
  exact (h.keys_sorted chain).filterMap _ fun a b hab x hx y hy => by
    rw [hfst a x hx, hfst b y hy]
    exact hab

end Heap

/-! ## A contract's items -/

namespace Simple

variable {A C N : Type} (s : Simple) (h : Heap A C N)

/-- `Seek(id, prefix, f)`: the arguments of the calls of `f`, in order. -/
def seek (id : UInt32) (pfx : Bytes) : List (Bytes × Bytes) :=
  let lookupKey := makeStorageItemKey s.version.storagePrefix id [] ++ pfx
  (h.seek s.chain lookupKey).map fun kv => (kv.1.drop lookupKey.length, kv.2)

/-- `GetStorageItemsWithPrefix`: what `Seek` gives its callback, collected. -/
def getStorageItemsWithPrefix (id : UInt32) (pfx : Bytes) : List (Bytes × Bytes) :=
  s.seek h id pfx

/-- **A contract's `Seek` is its items under the prefix, in order.** For every contract id and
prefix `p`, the callback is given `(k, v)` exactly when the contract's item under `p ++ k`
reads `v`; the keys `p ++ k` come once each in ascending order; and
`GetStorageItemsWithPrefix` returns these pairs. -/
theorem seek_storage_items (id : UInt32) (p : Bytes) :
    (∀ k v, (k, v) ∈ s.seek h id p ↔ s.getStorageItem h id (p ++ k) = some v) ∧
      ((s.seek h id p).map fun e => p ++ e.1).Pairwise (fun a b => bytesLE a b ∧ a ≠ b) ∧
      s.getStorageItemsWithPrefix h id p = s.seek h id p := by
  set lookupKey := makeStorageItemKey s.version.storagePrefix id [] ++ p with hlk
  have hsplit : ∀ kv ∈ h.seek s.chain lookupKey, kv.1 = lookupKey ++ kv.1.drop lookupKey.length :=
    fun kv hkv => by
      obtain ⟨t, ht⟩ := ((h.mem_seek).mp hkv).1
      rw [← ht, List.drop_left]
  have hkey : ∀ k, makeStorageItemKey s.version.storagePrefix id (p ++ k) = lookupKey ++ k := by
    intro k; simp [hlk, makeStorageItemKey]
  refine ⟨fun k v => ?_, ?_, rfl⟩
  · simp only [seek, ← hlk, List.mem_map, Prod.mk.injEq, getStorageItem, hkey]
    constructor
    · rintro ⟨kv, hkv, rfl, rfl⟩
      rw [← hsplit kv hkv]
      exact ((h.mem_seek).mp hkv).2
    · intro hv
      exact ⟨(lookupKey ++ k, v), (h.mem_seek).mpr ⟨List.prefix_append _ _, hv⟩, by simp, rfl⟩
  · simp only [seek, ← hlk, List.map_map]
    refine List.pairwise_map.mpr ((h.seek_sorted s.chain lookupKey).imp_of_mem ?_)
    intro a b ha hb hab
    rw [hsplit a ha, hsplit b hb, bytesLE_append_left] at hab
    simp only [Function.comp_apply, bytesLE_append_left, ne_eq, List.append_cancel_left_eq]
    exact ⟨hab.1, fun he => hab.2 (by rw [he])⟩

end Simple

end NeoGo.Dao
