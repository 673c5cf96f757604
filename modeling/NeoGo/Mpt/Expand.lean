import NeoGo.Mpt.Traverse

/-! # What the walks change: hash nodes resolved in place

`GetProof` assigns the nodes its descent resolved when it succeeds. `Traverse` assigns the
nodes its walk resolved before it halted, and changes in place whatever it did below them,
even when it fails. Both change the trie in one way only: a hash node is replaced by the node
stored under its hash, itself possibly changed the same way (`Expands`).

Such a change keeps the map the trie denotes (`Expands.mapsTo_iff`), since the descent
resolves that hash node to that stored node anyway. Over a content-addressed store and a
canonical encoding it also keeps every node's hash (`Expands.nodeHash_eq`), since a resolved
node encodes as the bytes stored under its hash, and it keeps the trie well stored
(`Expands.stored`).
-/

namespace NeoGo.Mpt

variable {H B σ : Type}

/-- `n'` is `n` with hash nodes replaced, in place, by the nodes stored under their hashes,
themselves changed the same way. -/
inductive Expands (c : Codec H B) (store : H → Option B) : Node H → Node H → Prop
  | refl (n : Node H) : Expands c store n n
  | branch (children children' : Fin 17 → Node H) :
      (∀ i, Expands c store (children i) (children' i)) →
      Expands c store (.branch children) (.branch children')
  | extension (key : List (Fin 16)) (next next' : Node H) : Expands c store next next' →
      Expands c store (.extension key next) (.extension key next')
  | resolve (h : H) (data : B) (n n' : Node H) : store h = some data → c.decode data = some n →
      Expands c store n n' → Expands c store (.hash (some h)) n'

/-- `t'` is `t` with hash nodes resolved in place: the same store, and a root that expands
`t`'s. -/
structure Trie.ExpandsTo (c : Codec H B) (t t' : Trie H B) : Prop where
  store_eq : t'.store = t.store
  root : Expands c t.store t.root t'.root

variable {c : Codec H B} {store : H → Option B}

theorem Codec.nodeHash_eq_of_shallow (hcan : c.Canonical) {n n' : Node H}
    (hn : n.isHash = false) (hn' : n'.isHash = false) (hsh : c.shallow n' = c.shallow n) :
    c.nodeHash n' = c.nodeHash n := by
  rw [c.nodeHash_of_not_isHash hn', c.nodeHash_of_not_isHash hn, ← hcan n', hsh, hcan]

theorem Canon.of_shallow (hcan : c.Canonical) {n n' : Node H} (hsh : c.shallow n' = c.shallow n)
    (hc : Canon c store n) : Canon c store n' := by
  have henc : c.encode n' = c.encode n := by rw [← hcan n', hsh, hcan]
  rw [Canon, henc, hsh]
  exact hc

namespace Expands

theorem trans {a b d : Node H} (hab : Expands c store a b) (hbd : Expands c store b d) :
    Expands c store a d := by
  induction hab generalizing d with
  | refl => exact hbd
  | branch cs cs' hcs ih =>
    cases hbd with
    | refl => exact .branch cs cs' hcs
    | branch _ cs'' hcs' => exact .branch cs cs'' fun i => ih i (hcs' i)
  | extension key n n' hn ih =>
    cases hbd with
    | refl => exact .extension key n n' hn
    | extension _ _ n'' hn' => exact .extension key n n'' (ih hn')
  | resolve h data n n' hst hdec _ ih => exact .resolve h data n d hst hdec (ih hbd)

theorem update {cs : Fin 17 → Node H} {i : Fin 17} {r : Node H} (h : Expands c store (cs i) r)
    (j : Fin 17) : Expands c store (cs j) (Function.update cs i r j) := by
  by_cases hj : j = i
  · subst hj
    rw [Function.update_same]
    exact h
  · rw [Function.update_noteq hj]
    exact .refl _

/-- **An expansion denotes the same map.** -/
theorem mapsTo_iff {n n' : Node H} (he : Expands c store n n') {path : List (Fin 16)}
    {value : List UInt8} : MapsTo c store n' path value ↔ MapsTo c store n path value := by
  induction he generalizing path with
  | refl => rfl
  | branch cs cs' _ ih => simp only [mapsTo_branch_iff, ih]
  | extension key n n' _ ih => simp only [mapsTo_extension_iff, ih]
  | resolve h data n n' hst hdec _ ih =>
    rw [ih, mapsTo_hash_iff]
    refine ⟨fun hm => ⟨data, n, hst, hdec, hm⟩, ?_⟩
    rintro ⟨data', m, hst', hdec', hm⟩
    obtain rfl : data' = data := Option.some.inj (hst'.symm.trans hst)
    obtain rfl : m = n := Option.some.inj (hdec'.symm.trans hdec)
    exact hm

section Stored

variable (hok : StoreOk c store) (hcan : c.Canonical)
include hok hcan

/-- **An expansion has the same hash**, over a content-addressed store and a canonical
encoding. -/
theorem nodeHash_eq {n n' : Node H} (he : Expands c store n n') : c.nodeHash n' = c.nodeHash n := by
  induction he with
  | refl => rfl
  | branch cs cs' _ ih =>
    exact c.nodeHash_eq_of_shallow hcan rfl rfl (by simp only [Codec.shallow, Codec.ref, ih])
  | extension key n n' _ ih =>
    exact c.nodeHash_eq_of_shallow hcan rfl rfl (by simp only [Codec.shallow, Codec.ref, ih])
  | resolve h data n n' hst hdec _ ih =>
    obtain ⟨hhash, m, hdm, henc, hres, -⟩ := hok h data hst
    obtain rfl : m = n := Option.some.inj (hdm.symm.trans hdec)
    rw [ih, c.nodeHash_of_not_isHash hres, henc, hhash]
    rfl

/-- **An expansion of a stored node is stored.** -/
theorem stored {n n' : Node H} (he : Expands c store n n') (hs : Stored c store n) :
    Stored c store n' := by
  induction he with
  | refl => exact hs
  | branch cs cs' hcs ih =>
    cases hs with
    | branch _ hc hchildren =>
      have hsh : c.shallow (.branch cs') = c.shallow (.branch cs) := by
        simp only [Codec.shallow, Codec.ref, fun i => nodeHash_eq hok hcan (hcs i)]
      exact .branch cs' (hc.of_shallow hcan hsh) fun i => ih i (hchildren i)
  | extension key n n' hn ih =>
    cases hs with
    | extension _ _ hc hnext =>
      have hsh : c.shallow (.extension key n') = c.shallow (.extension key n) := by
        simp only [Codec.shallow, Codec.ref, nodeHash_eq hok hcan hn]
      exact .extension key n' (hc.of_shallow hcan hsh) (ih hnext)
  | resolve h data n n' hst hdec _ ih =>
    obtain ⟨-, m, hdm, -, -, hm⟩ := hok h data hst
    obtain rfl : m = n := Option.some.inj (hdm.symm.trans hdec)
    exact ih hm

end Stored

end Expands

namespace Trie.ExpandsTo

variable {t t' : Trie H B}

theorem mapsTo_iff (he : t.ExpandsTo c t') (key value : List UInt8) :
    t'.MapsTo c key value ↔ t.MapsTo c key value := by
  unfold Trie.MapsTo
  rw [he.store_eq]
  exact he.root.mapsTo_iff

theorem nodeHash_eq (he : t.ExpandsTo c t') (hok : StoreOk c t.store) (hcan : c.Canonical) :
    c.nodeHash t'.root = c.nodeHash t.root :=
  he.root.nodeHash_eq hok hcan

theorem wellStored (he : t.ExpandsTo c t') (hw : t.WellStored c) (hcan : c.Canonical) :
    t'.WellStored c := by
  refine ⟨by rw [he.store_eq]; exact hw.storeOk, ?_⟩
  rw [he.store_eq]
  exact he.root.stored hw.storeOk hcan hw.stored

end Trie.ExpandsTo

/-! ## The walks only expand the trie -/

section Walks

theorem Outcome.assign_expands {n slot : Node H} {out : Outcome H}
    (hslot : Expands c store n slot) (hout : Expands c store n (out.assign n)) :
    Expands c store n (out.assign slot) := by
  cases out <;> assumption

theorem Ending.assign_outcome_expands (e : Ending) {n m : Node H} (hm : Expands c store n m) :
    Expands c store n ((e.outcome m).assign n) := by
  cases e
  · exact hm
  · exact hm
  · exact .refl n

/-- The loop over a branch's children leaves every child expanded, when each call does. -/
theorem traverseChildren_expands {tr : Node H → σ → Node H × Outcome H × σ}
    (htr : ∀ n s, Expands c store n (tr n s).1 ∧ Expands c store n ((tr n s).2.1.assign n)) :
    ∀ (is : List (Fin 17)) (cs : Fin 17 → Node H) (s : σ) (i : Fin 17),
      Expands c store (cs i) ((traverseChildren tr is cs s).1 i)
  | [], _, _, _ => .refl _
  | j :: is, cs, s, i => by
    rcases htrj : tr (cs j) s with ⟨slot, out, s'⟩
    obtain ⟨hslot, hout⟩ := htr (cs j) s
    rw [htrj] at hslot hout
    have hupd := Expands.update (Outcome.assign_expands hslot hout) i
    simp only [traverseChildren, htrj]
    split
    · exact hupd.trans (traverseChildren_expands htr is _ s' i)
    · exact hupd

/-- **`traverse` only expands**: the node it leaves in the caller's slot, and the node it
returns unless it failed, expand the node it started from. -/
theorem traverse_expands (process : σ → Node H → B → σ × Bool) (ignoreStorageErr : Bool) :
    ∀ (fuel : Nat) (n : Node H) (s : σ),
      Expands c store n (traverse c store process ignoreStorageErr fuel n s).1 ∧
        Expands c store n ((traverse c store process ignoreStorageErr fuel n s).2.1.assign n)
  | 0, n, _ => ⟨.refl n, .refl n⟩
  | _ + 1, .hash none, _ => ⟨.refl _, .refl _⟩
  | fuel + 1, .hash (some h), s => by
    rw [traverse]
    split
    · exact ⟨.refl _, by split <;> exact .refl _⟩
    · rename_i r hget
      obtain ⟨data, hst, hdec⟩ := getFromStore_eq_ok.mp hget
      have hr := (traverse_expands process ignoreStorageErr fuel r s).2
      generalize (traverse c store process ignoreStorageErr fuel r s).2.1 = out at hr ⊢
      refine ⟨.refl _, ?_⟩
      cases out with
      | done r' | stop r' => exact .resolve h data r r' hst hdec hr
      | fail e => exact .refl _
  | _ + 1, .leaf value, s => by
    rcases hpr : process s (.leaf value) (c.encode (.leaf value)) with ⟨s', _ | _⟩ <;>
      rw [traverse, hpr] <;> exact ⟨.refl _, .refl _⟩
  | fuel + 1, .branch children, s => by
    rcases hpr : process s (.branch children) (c.encode (.branch children)) with ⟨s', _ | _⟩
    · rw [traverse, hpr]
      simp only [Bool.false_eq_true, if_false]
      have hcs := Expands.branch _ _ (traverseChildren_expands
        (fun n s => traverse_expands process ignoreStorageErr fuel n s) (List.finRange 17) children s')
      exact ⟨hcs, Ending.assign_outcome_expands _ hcs⟩
    · rw [traverse, hpr]
      exact ⟨.refl _, .refl _⟩
  | fuel + 1, .extension key next, s => by
    rcases hpr : process s (.extension key next) (c.encode (.extension key next)) with
      ⟨s', _ | _⟩
    · rw [traverse, hpr]
      simp only [Bool.false_eq_true, if_false]
      obtain ⟨hslot, hout⟩ := traverse_expands process ignoreStorageErr fuel next s'
      have hn := Expands.extension key _ _ (Outcome.assign_expands hslot hout)
      exact ⟨hn, Ending.assign_outcome_expands _ hn⟩
    · rw [traverse, hpr]
      exact ⟨.refl _, .refl _⟩

/-- **`Traverse` only expands the trie**, whether it finishes, halts or fails. -/
theorem Trie.traverse_expandsTo (t : Trie H B) (process : σ → Node H → B → σ × Bool)
    (ignoreStorageErr : Bool) (fuel : Nat) (s : σ) :
    t.ExpandsTo c (t.Traverse c process ignoreStorageErr fuel s).2.1 := by
  obtain ⟨hslot, hout⟩ := traverse_expands process ignoreStorageErr fuel t.root s
  exact ⟨rfl, Outcome.assign_expands hslot hout⟩

/-- A successful `getProof` returns an expansion of the node it started from. -/
theorem getProof_expands :
    ∀ {fuel : Nat} {n : Node H} {path : List (Fin 16)} {acc ps : List B} {r : Node H},
      getProof c store fuel n path acc = (.ok r, ps) → Expands c store n r
  | 0, _, _, _, _, _, h => by simp [getProof] at h
  | fuel + 1, n, path, acc, ps, r, h => by
    cases n with
    | leaf v =>
      simp only [getProof] at h
      split at h
      · cases h; exact .refl _
      · cases h
    | branch children =>
      simp only [getProof] at h
      split at h
      · cases h
      · rename_i r' ps' hrec
        cases h
        exact .branch _ _ (Expands.update (getProof_expands hrec))
    | extension key next =>
      simp only [getProof] at h
      split at h
      · split at h
        · cases h
        · rename_i r' ps' hrec
          cases h
          exact .extension key _ _ (getProof_expands hrec)
      · cases h
    | hash h' =>
      rcases h' with _ | h'
      · simp [getProof] at h
      · simp only [getProof] at h
        split at h
        · cases h
        · rename_i n' hget
          obtain ⟨data, hst, hdec⟩ := getFromStore_eq_ok.mp hget
          exact .resolve h' data n' r hst hdec (getProof_expands h)

/-- **`GetProof` only expands the trie**, whether it succeeds or fails. -/
theorem Trie.getProof_expandsTo (t : Trie H B) (fuel : Nat) (key : List UInt8) :
    t.ExpandsTo c (t.GetProof c fuel key).2 := by
  unfold Trie.GetProof
  split
  · exact ⟨rfl, .refl _⟩
  · rename_i r proof hr
    exact ⟨rfl, getProof_expands hr⟩

end Walks

/-- **`GetProof` and `Traverse` keep what the trie denotes.** Over a content-addressed store
and a canonical encoding, the trie after `GetProof` of any key, and after `Traverse` with any
closure, however either ends, is the trie with hash nodes resolved in place; it maps every key
to the same value, and its root has the same hash. -/
theorem getProof_traverse_keep_contents {t : Trie H B} (hok : StoreOk c t.store)
    (hcan : c.Canonical) (fuel : Nat) (key : List UInt8) (process : σ → Node H → B → σ × Bool)
    (ignoreStorageErr : Bool) (s : σ) :
    ∀ t' ∈ [(t.GetProof c fuel key).2, (t.Traverse c process ignoreStorageErr fuel s).2.1],
      t.ExpandsTo c t' ∧ (∀ key value, t'.MapsTo c key value ↔ t.MapsTo c key value) ∧
        c.nodeHash t'.root = c.nodeHash t.root := by
  have hkeep : ∀ t', t.ExpandsTo c t' → t.ExpandsTo c t' ∧
      (∀ key value, t'.MapsTo c key value ↔ t.MapsTo c key value) ∧
        c.nodeHash t'.root = c.nodeHash t.root :=
    fun t' he => ⟨he, he.mapsTo_iff, he.nodeHash_eq hok hcan⟩
  exact List.forall_mem_cons.mpr ⟨hkeep _ (t.getProof_expandsTo fuel key),
    List.forall_mem_singleton.mpr (hkeep _ (t.traverse_expandsTo process ignoreStorageErr fuel s))⟩

theorem toyCodec_canonical : toyCodec.Canonical := by
  intro n
  cases n with
  | branch children =>
    show toyEncode (.branch fun i => toyCodec.ref (children i)) = toyEncode (.branch children)
    rw [toyEncode, toyEncode]
    congr 2
    funext i
    cases children i <;> rfl
  | extension key next => cases next <;> rfl
  | leaf value => rfl
  | hash h => rfl

/-- `GetProof` of `0xab` and a `Traverse` halted at the extension keep what `hiTrie` denotes. -/
theorem hiTrie_walks_keep_contents :
    StoreOk toyCodec hiTrie.store ∧ toyCodec.Canonical ∧
      ∀ t' ∈ [(hiTrie.GetProof toyCodec 8 [0xab]).2,
          (hiTrie.Traverse toyCodec haltOnSecond false 8 0).2.1],
        hiTrie.ExpandsTo toyCodec t' ∧
          (∀ key value, t'.MapsTo toyCodec key value ↔ hiTrie.MapsTo toyCodec key value) ∧
          toyCodec.nodeHash t'.root = toyCodec.nodeHash hiTrie.root :=
  ⟨hiTrie_wellStored.storeOk, toyCodec_canonical,
    getProof_traverse_keep_contents hiTrie_wellStored.storeOk toyCodec_canonical 8 [0xab]
      haltOnSecond false 0⟩

end NeoGo.Mpt
