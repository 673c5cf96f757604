import Mathlib.Data.List.Chain
import Mathlib.Data.List.Sort
import NeoGo.Dao.Layers
import NeoGo.Dao.Transaction

/-! # The header hash list

Header hashes are stored in batches, each under `IXHeaderHashList || u32-LE(start)`, the
index of the batch's first header. `GetHeaderHashes` reads every batch the store's `Seek`
gives into a map by start, sorts the starts numerically (their little-endian keys are not in
that order once a start passes 255) and rebuilds the list as `hashes[:start] ++ batch` for each
start in turn.

When the smallest start is 0 and every start is at most the end of the batch before it, no
reslice goes past the list built so far, and the result is each batch from its start up to the
next start, the last one whole (`getHeaderHashes_batches`), whatever order the `Seek` gives.
The proof follows the code: the map holds each batch under its start and its sorted keys are
the starts in order (`headerHashMap_batches`), and the rebuilding loop is `assemble` over the
batches (`foldlM_rebuild`), whose result `getElem?_foldl_assemble` describes.
-/

namespace NeoGo.Dao

/-! ## `GoMap`s built by a loop of assignments -/

namespace GoMap

variable {α K V : Type} [DecidableEq K] (f : α → K) (g : α → V)

theorem mem_keys_set {m : GoMap K V} {k k' : K} {v : V} :
    k' ∈ (m.set k v).map Prod.fst ↔ k' = k ∨ k' ∈ m.map Prod.fst := by
  simp only [set, List.map_cons, List.mem_cons, List.mem_map, List.mem_filter, decide_eq_true_eq]
  constructor
  · rintro (rfl | ⟨e, ⟨he, -⟩, rfl⟩)
    exacts [Or.inl rfl, Or.inr ⟨e, he, rfl⟩]
  · rintro (rfl | ⟨e, he, rfl⟩)
    · exact Or.inl rfl
    · by_cases hk : e.1 = k
      · exact Or.inl hk
      · exact Or.inr ⟨e, ⟨he, hk⟩, rfl⟩

theorem nodup_keys_set {m : GoMap K V} (hm : (m.map Prod.fst).Nodup) (k : K) (v : V) :
    ((m.set k v).map Prod.fst).Nodup := by
  simp only [set, List.map_cons, List.nodup_cons, List.mem_map, List.mem_filter,
    decide_eq_true_eq, not_exists, not_and]
  exact ⟨fun e ⟨_, hk⟩ he => hk he, hm.sublist ((List.filter_sublist m).map _)⟩

/-- A loop of assignments keeps the keys once each; its keys are those it assigned and those
before. -/
theorem keys_foldl_set (l : List α) : ∀ m : GoMap K V, (m.map Prod.fst).Nodup →
    ((l.foldl (fun m x => m.set (f x) (g x)) m).map Prod.fst).Nodup ∧
      ∀ k, k ∈ (l.foldl (fun m x => m.set (f x) (g x)) m).map Prod.fst ↔
        (∃ x ∈ l, f x = k) ∨ k ∈ m.map Prod.fst := by
  induction l with
  | nil => intro m hm; simp [hm]
  | cons x l ih =>
    intro m hm
    obtain ⟨hnd, hmem⟩ := ih (m.set (f x) (g x)) (nodup_keys_set hm _ _)
    refine ⟨hnd, fun k => ?_⟩
    rw [List.foldl_cons, hmem, mem_keys_set]
    constructor
    · rintro (⟨y, hy, rfl⟩ | rfl | hk)
      exacts [Or.inl ⟨y, List.mem_cons_of_mem _ hy, rfl⟩, Or.inl ⟨x, List.mem_cons_self _ _, rfl⟩,
        Or.inr hk]
    · rintro (⟨y, hy, rfl⟩ | hk)
      · rcases List.mem_cons.mp hy with rfl | hy
        · exact Or.inr (Or.inl rfl)
        · exact Or.inl ⟨y, hy, rfl⟩
      · exact Or.inr (Or.inr hk)

theorem get_foldl_set_of_not_mem (l : List α) {k : K} (hk : ∀ x ∈ l, f x ≠ k) :
    ∀ m : GoMap K V, (l.foldl (fun m x => m.set (f x) (g x)) m).get k = m.get k := by
  induction l with
  | nil => intro _; rfl
  | cons x l ih =>
    intro m
    rw [List.foldl_cons, ih (fun y hy => hk y (List.mem_cons_of_mem _ hy)),
      get_set_ne _ _ (hk x (List.mem_cons_self _ _))]

/-- After a loop of assignments a key assigned by it holds the value of one of its
assignments. -/
theorem get_foldl_set (l : List α) {k : K} :
    ∀ m : GoMap K V, (∃ x ∈ l, f x = k) →
      ∃ x ∈ l, f x = k ∧ (l.foldl (fun m x => m.set (f x) (g x)) m).get k = some (g x) := by
  induction l with
  | nil => intro _ ⟨_, hx, _⟩; cases hx
  | cons x l ih =>
    intro m hk
    by_cases hl : ∃ y ∈ l, f y = k
    · obtain ⟨y, hy, hyk, hget⟩ := ih (m.set (f x) (g x)) hl
      exact ⟨y, List.mem_cons_of_mem _ hy, hyk, hget⟩
    · push_neg at hl
      have hx : f x = k := by
        obtain ⟨y, hy, hyk⟩ := hk
        rcases List.mem_cons.mp hy with rfl | hy
        · exact hyk
        · exact absurd hyk (hl y hy)
      refine ⟨x, List.mem_cons_self _ _, hx, ?_⟩
      rw [List.foldl_cons, get_foldl_set_of_not_mem f g l hl, hx, get_set_self]

end GoMap

/-! ## The model -/

/-- `read2000Uint256Hashes`, over `readArray`, the reader's `ReadArray` of `Uint256`s (modelled
from the spec): the hashes, or `none` for the reader's error. -/
def read2000Uint256Hashes (readArray : Bytes → Option (List Uint256)) (b : Bytes) :
    Option (List Uint256) :=
  readArray b

/-- The first loop of `GetHeaderHashes`, over the pairs its `Seek` gives, in their order: the
map from each start to its batch. `none` is a panic: a key too short for
`binary.LittleEndian.Uint32(k[1:])`, or a record `read2000Uint256Hashes` rejects. -/
def headerHashMap (readArray : Bytes → Option (List Uint256)) (kvs : List (Bytes × Bytes)) :
    Option (GoMap UInt32 (List Uint256)) :=
  kvs.foldlM (fun (hashMap : GoMap UInt32 (List Uint256)) kv =>
    if kv.1.length < 5 then none
    else (read2000Uint256Hashes readArray kv.2).map fun hashes =>
      hashMap.set (readU32LE (kv.1.drop 1)) hashes) []

/-- The rest of `GetHeaderHashes`: the map's keys sorted, and the list rebuilt as
`hashes[:key] ++ hashMap[key]` for each in turn. `none` when a key passes the hashes' length:
Go panics past the slice's capacity, and between its length and capacity reslices into the
backing array, whose contents depend on how `append` grew it; the model does not follow that
case. -/
def rebuildHeaderHashes (hashMap : GoMap UInt32 (List Uint256)) : Option (List Uint256) :=
  let sortedKeys := (hashMap.map Prod.fst).insertionSort (· ≤ ·)
  sortedKeys.foldlM (fun hashes key =>
    if key.toNat ≤ hashes.length then some (hashes.take key.toNat ++ (hashMap.get key).getD [])
    else none) []

/-- `GetHeaderHashes` after its `Seek` over `IXHeaderHashList`, on the pairs the `Seek` gives. -/
def headerHashes (readArray : Bytes → Option (List Uint256)) (kvs : List (Bytes × Bytes)) :
    Option (List Uint256) :=
  (headerHashMap readArray kvs).bind rebuildHeaderHashes

def Simple.getHeaderHashes {A C N : Type} (s : Simple) (h : Heap A C N)
    (readArray : Bytes → Option (List Uint256)) : Option (List Uint256) :=
  headerHashes readArray (h.seek s.chain [KeyPrefix.ixHeaderHashList.toByte])

/-! ## Batches -/

/-- A stored batch of header hashes: the index of its first header, its record, and the hashes
the record holds. -/
structure HeaderBatch where
  start : UInt32
  record : Bytes
  hashes : List Uint256

/-- The key and value of a batch in the store. -/
def HeaderBatch.entry (b : HeaderBatch) : Bytes × Bytes :=
  (KeyPrefix.ixHeaderHashList.toByte :: le32 b.start, b.record)

/-- One round of the rebuilding loop: the list cut at the batch's start, then the batch. -/
def assemble (hashes : List Uint256) (b : HeaderBatch) : List Uint256 :=
  hashes.take b.start.toNat ++ b.hashes

/-- Every start is at most the end of the batch before it. -/
def NoGap (bs : List HeaderBatch) : Prop :=
  bs.Chain' fun a b => b.start.toNat ≤ a.start.toNat + a.hashes.length

/-- The next start is at most the length of the list built so far. -/
def StartsWithin (bs : List HeaderBatch) (hashes : List Uint256) : Prop :=
  ∀ b ∈ bs.head?, b.start.toNat ≤ hashes.length

theorem startsWithin_assemble {b c : HeaderBatch} {rest : List HeaderBatch}
    {hashes : List Uint256} (hgap : NoGap (b :: c :: rest)) (hin : StartsWithin (b :: c :: rest) hashes) :
    StartsWithin (c :: rest) (assemble hashes b) := by
  have hb := hin b rfl
  have hc := (List.chain'_cons.mp hgap).1
  intro x hx
  cases hx
  simp only [assemble, List.length_append, List.length_take]
  omega

instance isTotal_uint32_le : IsTotal UInt32 (· ≤ ·) := ⟨UInt32.le_total⟩

instance isTrans_uint32_le : IsTrans UInt32 (· ≤ ·) := ⟨fun _ _ _ => UInt32.le_trans⟩

instance isAntisymm_uint32_le : IsAntisymm UInt32 (· ≤ ·) :=
  ⟨fun _ _ hab hba => UInt32.toNat.inj (Nat.le_antisymm hab hba)⟩

theorem foldlM_eq_some_foldl {α β : Type} (f : β → α → Option β) (g : β → α → β) (l : List α)
    (hfg : ∀ m, ∀ x ∈ l, f m x = some (g m x)) (m : β) : l.foldlM f m = some (l.foldl g m) := by
  induction l generalizing m with
  | nil => rfl
  | cons x l ih =>
    rw [List.foldlM_cons, hfg m x (List.mem_cons_self _ _), List.foldl_cons]
    exact ih (fun m y hy => hfg m y (List.mem_cons_of_mem _ hy)) _

section Batches

variable {readArray : Bytes → Option (List Uint256)} {bs : List HeaderBatch}

/-- The map of `GetHeaderHashes`, built from the pairs of the batches in any order, holds each
batch under its start, and its sorted keys are the starts in order. -/
theorem headerHashMap_batches
    (hread : ∀ b ∈ bs, read2000Uint256Hashes readArray b.record = some b.hashes)
    (hsorted : bs.Pairwise fun a b => a.start < b.start)
    {kvs : List (Bytes × Bytes)} (hkvs : kvs.Perm (bs.map HeaderBatch.entry)) :
    ∃ hashMap, headerHashMap readArray kvs = some hashMap ∧
      (∀ b ∈ bs, hashMap.get b.start = some b.hashes) ∧
      (hashMap.map Prod.fst).insertionSort (· ≤ ·) = bs.map HeaderBatch.start := by
  have hmem : ∀ kv ∈ kvs, ∃ b ∈ bs, b.entry = kv :=
    fun kv hkv => List.mem_map.mp (hkvs.mem_iff.mp hkv)
  have hentry : ∀ b ∈ bs, b.entry ∈ kvs := fun b hb => hkvs.mem_iff.mpr (List.mem_map_of_mem _ hb)
  have hkey : ∀ b : HeaderBatch, readU32LE (b.entry.1.drop 1) = b.start := fun b => by
    simpa [HeaderBatch.entry] using readU32LE_le32_append b.start []
  have hnd : (bs.map HeaderBatch.start).Nodup := List.pairwise_map.mpr (hsorted.imp UInt32.ne_of_lt)
  -- Every pair is a batch's, so every round of the loop assigns.
  have hloop : headerHashMap readArray kvs = some (kvs.foldl (fun (m : GoMap UInt32 (List Uint256)) kv =>
      m.set (readU32LE (kv.1.drop 1)) ((read2000Uint256Hashes readArray kv.2).getD [])) []) :=
    foldlM_eq_some_foldl _ _ kvs (fun m kv hkv => by
      obtain ⟨b, hb, rfl⟩ := hmem kv hkv
      simp only [HeaderBatch.entry, List.length_cons, le32, List.length_nil, Nat.lt_irrefl,
        if_false, hread b hb, Option.map_some', Option.getD_some]) []
  refine ⟨_, hloop, fun b hb => ?_, ?_⟩
  · obtain ⟨kv, hkv, hk, hv⟩ := GoMap.get_foldl_set (fun kv : Bytes × Bytes => readU32LE (kv.1.drop 1))
      (fun kv => (read2000Uint256Hashes readArray kv.2).getD []) kvs [] ⟨b.entry, hentry b hb, hkey b⟩
    obtain ⟨b', hb', rfl⟩ := hmem kv hkv
    rw [hkey b'] at hk
    obtain rfl := List.inj_on_of_nodup_map hnd hb' hb hk
    rw [hv]
    simp [HeaderBatch.entry, hread b' hb']
  · obtain ⟨hnd', hmem'⟩ := GoMap.keys_foldl_set (fun kv : Bytes × Bytes => readU32LE (kv.1.drop 1))
      (fun kv => (read2000Uint256Hashes readArray kv.2).getD []) kvs [] List.nodup_nil
    have hkeys := (List.perm_ext_iff_of_nodup hnd' hnd).mpr fun k => by
      rw [hmem', ← List.mem_map, (hkvs.map _).mem_iff, List.map_map]
      simp only [Function.comp_def, hkey, List.map_nil, List.not_mem_nil, or_false]
    exact List.eq_of_perm_of_sorted ((List.perm_insertionSort _ _).trans hkeys)
      (List.sorted_insertionSort _ _) (List.pairwise_map.mpr (hsorted.imp Nat.le_of_lt))

/-- The rebuilding loop over the batches' starts, looking each batch up, is `assemble` over the
batches when no start is past the list built before it. -/
theorem foldlM_rebuild (lookup : UInt32 → List Uint256) :
    ∀ (bs : List HeaderBatch) (hashes : List Uint256), (∀ b ∈ bs, lookup b.start = b.hashes) →
      NoGap bs → StartsWithin bs hashes →
      (bs.map HeaderBatch.start).foldlM (fun hashes key =>
          if key.toNat ≤ hashes.length then some (hashes.take key.toNat ++ lookup key) else none)
        hashes = some (bs.foldl assemble hashes)
  | [], _, _, _, _ => rfl
  | [b], hashes, hl, _, hin => by
    simp [hin b rfl, hl b (List.mem_singleton_self b), assemble]
  | b :: c :: rest, hashes, hl, hgap, hin => by
    rw [List.map_cons, List.foldlM_cons, if_pos (hin b rfl), hl b (List.mem_cons_self _ _)]
    exact foldlM_rebuild lookup (c :: rest) (assemble hashes b)
      (fun x hx => hl x (List.mem_cons_of_mem _ hx)) (List.chain'_cons.mp hgap).2
      (startsWithin_assemble hgap hin)

/-- The rebuilt list ends with the last batch, whole. -/
theorem length_foldl_assemble :
    ∀ (bs : List HeaderBatch) (hashes : List Uint256) (b : HeaderBatch), bs.getLast? = some b →
      NoGap bs → StartsWithin bs hashes →
      (bs.foldl assemble hashes).length = b.start.toNat + b.hashes.length
  | [], _, _, hb, _, _ => by cases hb
  | [x], hashes, b, hb, _, hin => by
    obtain rfl : x = b := by simpa using hb
    simp only [List.foldl_cons, List.foldl_nil, assemble, List.length_append, List.length_take]
    have := hin x rfl
    omega
  | x :: c :: rest, hashes, b, hb, hgap, hin =>
    length_foldl_assemble (c :: rest) (assemble hashes x) b (by simpa using hb)
      (List.chain'_cons.mp hgap).2 (startsWithin_assemble hgap hin)

/-- The rebuilding leaves the list before the first start alone. -/
theorem getElem?_foldl_assemble_of_lt {j : Nat} :
    ∀ (bs : List HeaderBatch) (hashes : List Uint256), (∀ b ∈ bs, j < b.start.toNat) →
      NoGap bs → StartsWithin bs hashes → (bs.foldl assemble hashes)[j]? = hashes[j]?
  | [], _, _, _, _ => rfl
  | [b], hashes, hj, _, hin => by
    have hb := hj b (List.mem_singleton_self b)
    have := hin b rfl
    rw [List.foldl_cons, List.foldl_nil, assemble,
      List.getElem?_append_left (by simp only [List.length_take]; omega), List.getElem?_take_of_lt hb]
  | b :: c :: rest, hashes, hj, hgap, hin => by
    have hb := hj b (List.mem_cons_self _ _)
    have := hin b rfl
    rw [List.foldl_cons, getElem?_foldl_assemble_of_lt (c :: rest) _
      (fun x hx => hj x (List.mem_cons_of_mem _ hx)) (List.chain'_cons.mp hgap).2
      (startsWithin_assemble hgap hin), assemble,
      List.getElem?_append_left (by simp only [List.length_take]; omega), List.getElem?_take_of_lt hb]

/-- **Where each hash comes from**: at every index from the first start on, the rebuilt list
holds the batch of the largest start at or before the index, from that start. -/
theorem getElem?_foldl_assemble {j : Nat} :
    ∀ (bs : List HeaderBatch) (hashes : List Uint256), (bs.Pairwise fun a b => a.start < b.start) →
      NoGap bs → StartsWithin bs hashes → ∀ b ∈ bs, b.start.toNat ≤ j →
      (∀ b' ∈ bs, b'.start.toNat ≤ j → b'.start.toNat ≤ b.start.toNat) →
      (bs.foldl assemble hashes)[j]? = b.hashes[j - b.start.toNat]?
  | [], _, _, _, _, _, hb, _, _ => by cases hb
  | x :: rest, hashes, hsorted, hgap, hin, b, hb, hbj, hmax => by
    have hx := hin x rfl
    have hrest : NoGap rest := (List.chain'_cons'.mp hgap).2
    have hinrest : StartsWithin rest (assemble hashes x) := by
      cases rest with
      | nil => intro _ h; cases h
      | cons c rest => exact startsWithin_assemble hgap hin
    rw [List.foldl_cons]
    rcases List.mem_cons.mp hb with rfl | hb
    · -- `b` is the head: every later start is past `j`.
      have hlater : ∀ c ∈ rest, j < c.start.toNat := fun c hc => by
        have hlt : b.start.toNat < c.start.toNat := (List.pairwise_cons.mp hsorted).1 c hc
        have := hmax c (List.mem_cons_of_mem _ hc)
        omega
      rw [getElem?_foldl_assemble_of_lt rest _ hlater hrest hinrest, assemble,
        List.getElem?_append_right (by simp only [List.length_take]; omega), List.length_take,
        Nat.min_eq_left hx]
    · exact getElem?_foldl_assemble rest _ (List.pairwise_cons.mp hsorted).2 hrest hinrest b hb hbj
        (fun b' hb' => hmax b' (List.mem_cons_of_mem _ hb'))

/-- Contiguous batches rebuild to their concatenation. -/
theorem foldl_assemble_contiguous :
    ∀ (bs : List HeaderBatch) (hashes : List Uint256),
      (bs.Chain' fun a b => b.start.toNat = a.start.toNat + a.hashes.length) →
      (∀ b ∈ bs.head?, b.start.toNat = hashes.length) →
      bs.foldl assemble hashes = hashes ++ bs.flatMap HeaderBatch.hashes
  | [], _, _, _ => by simp
  | b :: rest, hashes, hc, hin => by
    have hb := hin b rfl
    have hnext : ∀ c ∈ rest.head?, c.start.toNat = (assemble hashes b).length := fun c hcr => by
      have := (List.chain'_cons'.mp hc).1 c hcr
      simp only [assemble, List.length_append, List.length_take]
      omega
    rw [List.foldl_cons, foldl_assemble_contiguous rest _ (List.chain'_cons'.mp hc).2 hnext, assemble,
      hb, List.take_length, List.flatMap_cons, List.append_assoc]

/-- **`GetHeaderHashes` rebuilds the header hash list**, whatever order the `Seek` gives the
batches in: from batches whose smallest start is 0 and whose every start is at most the end
of the batch before it, it returns a list ending with the last batch whole, holding at every
index the batch of the largest start at or before it; contiguous batches give their
concatenation. -/
theorem getHeaderHashes_batches
    (hread : ∀ b ∈ bs, read2000Uint256Hashes readArray b.record = some b.hashes)
    (hsorted : bs.Pairwise fun a b => a.start < b.start)
    (hzero : bs.head?.map HeaderBatch.start = some 0)
    (hgap : bs.Chain' fun a b => b.start.toNat ≤ a.start.toNat + a.hashes.length)
    {kvs : List (Bytes × Bytes)} (hkvs : kvs.Perm (bs.map HeaderBatch.entry)) :
    ∃ hashes, headerHashes readArray kvs = some hashes ∧
      (∀ b, bs.getLast? = some b → hashes.length = b.start.toNat + b.hashes.length) ∧
      (∀ j, ∀ b ∈ bs, b.start.toNat ≤ j →
        (∀ b' ∈ bs, b'.start.toNat ≤ j → b'.start.toNat ≤ b.start.toNat) →
        hashes[j]? = b.hashes[j - b.start.toNat]?) ∧
      ((bs.Chain' fun a b => b.start.toNat = a.start.toNat + a.hashes.length) →
        hashes = bs.flatMap HeaderBatch.hashes) := by
  have hin : StartsWithin bs [] := fun b hb => by
    rw [Option.mem_def.mp hb] at hzero
    simp only [Option.map_some', Option.some.injEq] at hzero
    simp [hzero]
  obtain ⟨hashMap, hmap, hget, hsortedKeys⟩ := headerHashMap_batches hread hsorted hkvs
  have hrebuild : rebuildHeaderHashes hashMap = some (bs.foldl assemble []) := by
    rw [rebuildHeaderHashes, hsortedKeys]
    exact foldlM_rebuild (fun key => (hashMap.get key).getD []) bs []
      (fun b hb => by simp only [hget b hb, Option.getD_some]) hgap hin
  refine ⟨bs.foldl assemble [], by rw [headerHashes, hmap, Option.some_bind, hrebuild],
    fun b hb => length_foldl_assemble bs [] b hb hgap hin,
    fun j b hb hbj hmax => getElem?_foldl_assemble bs [] hsorted hgap hin b hb hbj hmax,
    fun hc => ?_⟩
  rw [foldl_assemble_contiguous bs [] hc (fun b hb => Nat.le_zero.mp (hin b hb)), List.nil_append]

end Batches

/-- A reader for the examples: each byte of a record is the hash `hashOf` of it. -/
def byteHashes (b : Bytes) : Option (List Uint256) := some (b.map hashOf)

/-- Two overlapping batches: three hashes from 0, two from 2. -/
def twoBatches : List HeaderBatch :=
  [⟨0, [1, 2, 3], [hashOf 1, hashOf 2, hashOf 3]⟩, ⟨2, [4, 5], [hashOf 4, hashOf 5]⟩]

/-- The two batches read back from a `Seek` that gives the later one first. -/
theorem getHeaderHashes_twoBatches :
    (∀ b ∈ twoBatches, read2000Uint256Hashes byteHashes b.record = some b.hashes) ∧
      (twoBatches.Pairwise fun a b => a.start < b.start) ∧
      twoBatches.head?.map HeaderBatch.start = some 0 ∧
      (twoBatches.Chain' fun a b => b.start.toNat ≤ a.start.toNat + a.hashes.length) ∧
      (twoBatches.reverse.map HeaderBatch.entry).Perm (twoBatches.map HeaderBatch.entry) ∧
      ∃ hashes, headerHashes byteHashes (twoBatches.reverse.map HeaderBatch.entry) = some hashes ∧
        (∀ b, twoBatches.getLast? = some b → hashes.length = b.start.toNat + b.hashes.length) ∧
        (∀ j, ∀ b ∈ twoBatches, b.start.toNat ≤ j →
          (∀ b' ∈ twoBatches, b'.start.toNat ≤ j → b'.start.toNat ≤ b.start.toNat) →
          hashes[j]? = b.hashes[j - b.start.toNat]?) ∧
        ((twoBatches.Chain' fun a b => b.start.toNat = a.start.toNat + a.hashes.length) →
          hashes = twoBatches.flatMap HeaderBatch.hashes) :=
  have hgap : twoBatches.Chain' fun a b => b.start.toNat ≤ a.start.toNat + a.hashes.length :=
    .cons (by decide) .nil
  ⟨by decide, by decide, by decide, hgap, by decide,
    getHeaderHashes_batches (by decide) (by decide) (by decide) hgap (by decide)⟩

end NeoGo.Dao
