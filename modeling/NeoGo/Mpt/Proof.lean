import NeoGo.Mpt.Node

/-! # Inclusion proofs: `GetProof` and `VerifyProof`

`getProof` descends like `getWithPath` and appends the encoding of every leaf, branch and
extension it passes. `VerifyProof` puts each proof element into an empty store under its own
hash and runs `getWithPath` from a hash node holding the root hash.

A trie is `WellStored` when every node it holds in memory is in its store under its hash in
canonical form (`Canon`), and the store is content-addressed: what it holds under `h` hashes
to `h` and decodes to a node whose encoding it is, with every reference inside resolving.
Completeness needs nothing more: for such a trie every proof element is what the store holds
under its hash, so the verifier's store agrees with the trie's. Soundness needs the hash to
have no collisions between the proof's elements and the store's contents; under that, the
verifier's descent is a descent of the trie.
-/

namespace NeoGo.Mpt

variable {H B : Type} [DecidableEq H]

/-! ## The code -/

/-- `Trie.getProof`: the resolved node and the proof so far, or the error and the proof so
far. -/
def getProof (c : Codec H B) (store : H → Option B) :
    Nat → Node H → List (Fin 16) → List B → Except MptError (Node H) × List B
  | 0, _, _, proofs => (.error .fuelExhausted, proofs)
  | fuel + 1, curr, path, proofs =>
    match curr with
    | .leaf _ =>
      if path = [] then (.ok curr, proofs ++ [c.encode curr]) else (.error .errNotFound, proofs)
    | .branch children =>
      let proofs := proofs ++ [c.encode curr]
      let (i, path) := splitPath path
      match getProof c store fuel (children i) path proofs with
      | (.error e, proofs) => (.error e, proofs)
      | (.ok r, proofs) => (.ok (.branch (Function.update children i r)), proofs)
    | .extension key next =>
      if path.take key.length = key then
        let proofs := proofs ++ [c.encode curr]
        match getProof c store fuel next (path.drop key.length) proofs with
        | (.error e, proofs) => (.error e, proofs)
        | (.ok r, proofs) => (.ok (.extension key r), proofs)
      else (.error .errNotFound, proofs)
    | .hash none => (.error .errNotFound, proofs)
    | .hash (some h) =>
      match getFromStore c store h with
      | .error e => (.error e, proofs)
      | .ok r => getProof c store fuel r path proofs

/-- `Trie.GetProof`: the proof and the error it returns, and the trie after it, whose root
holds what the descent resolved when it succeeded. -/
def Trie.GetProof (c : Codec H B) (t : Trie H B) (fuel : Nat) (key : List UInt8) :
    (List B × Option MptError) × Trie H B :=
  match getProof c t.store fuel t.root (toNibbles key) [] with
  | (.error e, proof) => ((proof, some e), t)
  | (.ok r, proof) => ((proof, none), { t with root := r })

/-- The store `VerifyProof` fills: each proof element under its own hash, a later element
overwriting an earlier one with the same hash. -/
def proofStore (c : Codec H B) (proofs : List B) : H → Option B :=
  proofs.foldl (fun st p => Function.update st (c.hash p) (some p)) fun _ => none

def verifyProof (c : Codec H B) (fuel : Nat) (rh : H) (key : List UInt8) (proofs : List B) :
    List UInt8 × Bool :=
  match getWithPath c (proofStore c proofs) fuel (.hash (some rh)) (toNibbles key) with
  | .ok (_, bs) => (bs, true)
  | .error _ => ([], false)

/-! ## Stored tries -/

/-- `n`'s encoding is in the store under its hash, and decodes to `n` with its children as
references. -/
def Canon (c : Codec H B) (store : H → Option B) (n : Node H) : Prop :=
  store (c.hash (c.encode n)) = some (c.encode n) ∧ c.decode (c.encode n) = some (c.shallow n)

/-- Every resolved node of an in-memory trie is `Canon`, and every reference resolves. -/
inductive Stored (c : Codec H B) (store : H → Option B) : Node H → Prop
  | leaf (value : List UInt8) : Canon c store (.leaf value) → Stored c store (.leaf value)
  | branch (children : Fin 17 → Node H) : Canon c store (.branch children) →
      (∀ i, Stored c store (children i)) → Stored c store (.branch children)
  | extension (key : List (Fin 16)) (next : Node H) : Canon c store (.extension key next) →
      Stored c store next → Stored c store (.extension key next)
  | hash (h : Option H) : (∀ x, h = some x → (store x).isSome) → Stored c store (.hash h)

/-- The store is content-addressed: what it holds under `h` hashes to `h` and is the encoding
of the resolved, stored node it decodes to. -/
def StoreOk (c : Codec H B) (store : H → Option B) : Prop :=
  ∀ h data, store h = some data → c.hash data = h ∧
    ∃ n, c.decode data = some n ∧ c.encode n = data ∧ n.isHash = false ∧ Stored c store n

/-- The trie's nodes are stored under their hashes, in canonical form. -/
structure Trie.WellStored (c : Codec H B) (t : Trie H B) : Prop where
  storeOk : StoreOk c t.store
  stored : Stored c t.store t.root

/-- Every element of `ps` is what `store` holds under its hash. -/
def Holds (c : Codec H B) (store : H → Option B) (ps : List B) : Prop :=
  ∀ e ∈ ps, store (c.hash e) = some e

variable {c : Codec H B}

omit [DecidableEq H] in
theorem Stored.canon {store : H → Option B} {n : Node H} (hs : Stored c store n)
    (hn : n.isHash = false) : Canon c store n := by
  cases hs with
  | hash => cases hn
  | _ => assumption

/-! ## The verifier's store -/

theorem foldl_update_eq_some (c : Codec H B) :
    ∀ (ps : List B) (st : H → Option B) {h : H} {e : B},
      ps.foldl (fun st p => Function.update st (c.hash p) (some p)) st h = some e →
        (e ∈ ps ∧ c.hash e = h) ∨ st h = some e
  | [], _, _, _, hst => .inr hst
  | p :: ps, st, h, e, hst => by
    rcases foldl_update_eq_some c ps _ hst with ⟨hm, he⟩ | hst
    · exact .inl ⟨List.mem_cons_of_mem _ hm, he⟩
    · by_cases hh : h = c.hash p
      · subst hh
        simp only [Function.update_same, Option.some.injEq] at hst
        exact .inl ⟨hst ▸ List.mem_cons_self _ _, by rw [hst]⟩
      · exact .inr (by simpa [Function.update_noteq hh] using hst)

theorem foldl_update_isSome (c : Codec H B) :
    ∀ (ps : List B) (st : H → Option B) {h : H},
      ((∃ e ∈ ps, c.hash e = h) ∨ (st h).isSome) →
        (ps.foldl (fun st p => Function.update st (c.hash p) (some p)) st h).isSome
  | [], _, _, hh => by simpa using hh
  | p :: ps, st, h, hh => by
    refine foldl_update_isSome c ps _ ?_
    rcases hh with ⟨e, he, rfl⟩ | hs
    · rcases List.mem_cons.mp he with rfl | he
      · exact .inr (by simp)
      · exact .inl ⟨e, he, rfl⟩
    · by_cases hh : h = c.hash p
      · subst hh; exact .inr (by simp)
      · exact .inr (by simpa [Function.update_noteq hh] using hs)

theorem proofStore_eq_some {proofs : List B} {h : H} {e : B} (hst : proofStore c proofs h = some e) :
    e ∈ proofs ∧ c.hash e = h :=
  (foldl_update_eq_some c proofs _ hst).resolve_right (by simp)

theorem Holds.inProofStore {store : H → Option B} {proofs : List B} (hh : Holds c store proofs) :
    Holds c (proofStore c proofs) proofs := by
  intro e he
  have hsome : (proofStore c proofs (c.hash e)).isSome :=
    foldl_update_isSome c proofs _ (.inl ⟨e, he, rfl⟩)
  obtain ⟨e', he'⟩ := Option.isSome_iff_exists.mp hsome
  obtain ⟨hm, hhash⟩ := proofStore_eq_some he'
  have : some e' = some e := by rw [← hh e' hm, hhash, hh e he]
  rw [he', this]

/-! ## Completeness -/

omit [DecidableEq H] in
/-- **`getProof` along a `MapsTo`.** It returns, with enough fuel and whatever came before,
a list of elements of the store, from which any store holding them lets the verifier's
descent start at the node's reference and reach the value. -/
theorem getProof_of_mapsTo {store : H → Option B} (hok : StoreOk c store) {n : Node H}
    {path : List (Fin 16)} {value : List UInt8} (hm : MapsTo c store n path value)
    (hs : Stored c store n) :
    ∃ r ps, Holds c store ps ∧ (∀ st, Holds c st ps → MapsTo c st (c.ref n) path value) ∧
      ∃ N, ∀ fuel, N ≤ fuel → ∀ acc, getProof c store fuel n path acc = (.ok r, acc ++ ps) := by
  induction hm with
  | leaf v =>
    obtain ⟨hcanon, hdec⟩ := hs.canon rfl
    exact ⟨.leaf v, [c.encode (.leaf v)], by simpa [Holds] using hcanon,
      fun st hst => .hash _ _ _ _ _ (hst _ (List.mem_singleton_self _)) hdec (.leaf v),
      0 + 1, fuel_succ fun _ _ acc => by simp [getProof]⟩
  | branch children path value _ ih =>
    obtain ⟨hcanon, hdec⟩ := hs.canon rfl
    have hchildren : ∀ i, Stored c store (children i) := by cases hs; assumption
    obtain ⟨r, ps, hps, hver, N, hN⟩ := ih (hchildren _)
    rcases hsp : splitPath path with ⟨i, rest⟩
    rw [hsp] at hN hver
    refine ⟨.branch (Function.update children i r), c.encode (.branch children) :: ps,
      List.forall_mem_cons.mpr ⟨hcanon, hps⟩, fun st hst => ?_,
      N + 1, fuel_succ fun fuel hf acc => by simp [getProof, hsp, hN fuel hf]⟩
    have hb := hst _ (List.mem_cons_self _ _)
    refine .hash _ _ _ _ _ hb hdec (.branch _ path value ?_)
    rw [hsp]
    exact hver st fun e he => hst e (List.mem_cons_of_mem _ he)
  | extension key next path value hpre _ ih =>
    obtain ⟨hcanon, hdec⟩ := hs.canon rfl
    have hnext : Stored c store next := by cases hs; assumption
    obtain ⟨r, ps, hps, hver, N, hN⟩ := ih hnext
    exact ⟨.extension key r, c.encode (.extension key next) :: ps,
      List.forall_mem_cons.mpr ⟨hcanon, hps⟩,
      fun st hst => .hash _ _ _ _ _ (hst _ (List.mem_cons_self _ _)) hdec
        (.extension key _ path value hpre (hver st fun e he => hst e (List.mem_cons_of_mem _ he))),
      N + 1, fuel_succ fun fuel hf acc => by simp [getProof, hpre, hN fuel hf]⟩
  | hash h data m path value hst hdec _ ih =>
    obtain ⟨hhash, n', hdec', henc, hres, hstored⟩ := hok h data hst
    have hm : n' = m := Option.some.inj (hdec'.symm.trans hdec)
    subst hm
    obtain ⟨r, ps, hps, hver, N, hN⟩ := ih hstored
    have href : c.ref n' = .hash (some h) := by
      rw [Codec.ref, c.nodeHash_of_not_isHash hres, henc, hhash]
    have hget : getFromStore c store h = .ok n' := getFromStore_eq_ok.mpr ⟨data, hst, hdec⟩
    exact ⟨r, ps, hps, fun st hst' => show MapsTo c st (.hash (some h)) path value from
      href ▸ hver st hst', N + 1, fuel_succ fun fuel hf acc => by
        simp only [getProof, hget]
        exact hN fuel hf acc⟩

/-- **Completeness of inclusion proofs.** For a trie whose nodes are stored under their
hashes, a key the trie maps to `value` gets, with enough fuel, a proof from `GetProof`
without error, and `VerifyProof` with the root's hash accepts it with `value`. -/
theorem verifyProof_getProof {t : Trie H B} (hw : t.WellStored c) {key value : List UInt8}
    (hm : t.MapsTo c key value) {rh : H} (hrh : c.nodeHash t.root = some rh) :
    ∃ N, ∀ fuel, N ≤ fuel → ∃ proof t', t.GetProof c fuel key = ((proof, none), t') ∧
      verifyProof c fuel rh key proof = (value, true) := by
  obtain ⟨r, ps, hps, hver, N₁, hN₁⟩ := getProof_of_mapsTo hw.storeOk hm hw.stored
  have hstart : c.ref t.root = .hash (some rh) := by rw [Codec.ref, hrh]
  obtain ⟨N₂, hN₂⟩ := getWithPath_complete (hstart ▸ hver _ hps.inProofStore)
  refine ⟨max N₁ N₂, fun fuel hf => ⟨ps, { t with root := r }, ?_, ?_⟩⟩
  · simp [Trie.GetProof, hN₁ fuel ((le_max_left N₁ N₂).trans hf) []]
  · obtain ⟨r', hr'⟩ := hN₂ fuel ((le_max_right N₁ N₂).trans hf)
    simp [verifyProof, hr']

/-! ### A concrete trie

The codec for concrete runs encodes a node as the node itself with its children replaced by
references, and hashes it to a number. `hiTrie` maps the key `0xab` to `"hi"` through a
branch held in memory, an extension and a leaf, the last two reached through the store.
-/

/-- A reference in `toyHash`: one more than its hash, `0` for the empty one. -/
def refCode : Node Nat → Nat
  | .hash (some h) => h + 1
  | _ => 0

/-- The toy hash of a node with references as children. -/
def toyHash : Node Nat → Nat
  | .leaf value => 4 * value.foldl (fun a b => 257 * a + b.toNat + 1) 0
  | .branch children =>
    4 * (List.range 17).foldl (fun a k => 7919 * a + refCode (children (Fin.ofNat k))) 0 + 1
  | .extension key next => 4 * key.foldl (fun a k => 17 * a + k.val + 1) (refCode next) + 2
  | .hash h => 4 * refCode (.hash h) + 3

/-- The toy encoding: the node with its children replaced by references. -/
def toyEncode : Node Nat → Node Nat
  | .branch children => .branch fun i => .hash (match children i with
      | .hash h => h
      | _ => some (toyHash (toyEncode (children i))))
  | .extension key next => .extension key (.hash (match next with
      | .hash h => h
      | _ => some (toyHash (toyEncode next))))
  | n => n

/-- The toy codec; decoding a node is the node. -/
def toyCodec : Codec Nat (Node Nat) := { hash := toyHash, encode := toyEncode, decode := some }

theorem toyCodec_decode_encode (n : Node Nat) :
    toyCodec.decode (toyCodec.encode n) = some (toyCodec.shallow n) := by
  cases n with
  | branch children =>
    show some (toyEncode (.branch children)) = some (.branch fun i => toyCodec.ref (children i))
    rw [toyEncode]
    congr 2
    funext i
    cases children i <;> rfl
  | extension key next => cases next <;> rfl
  | leaf value => rfl
  | hash h => rfl

/-- A store holding the given encodings, each under its toy hash. -/
def toyStore (nodes : List (Node Nat)) (h : Nat) : Option (Node Nat) :=
  nodes.find? fun n => toyHash n == h

theorem toyStore_cons_self (n : Node Nat) (nodes : List (Node Nat)) :
    toyStore (n :: nodes) (toyHash n) = some n := by
  simp [toyStore]

theorem toyStore_cons_of_ne {n : Node Nat} {h : Nat} (nodes : List (Node Nat)) (hne : toyHash n ≠ h) :
    toyStore (n :: nodes) h = toyStore nodes h := by
  simp [toyStore, hne]

/-- The leaf holding `"hi"`. -/
def hiLeaf : Node Nat := .leaf [104, 105]

/-- The extension on nibble `b`, as stored: its next node is the leaf's reference. -/
def hiExt : Node Nat := .extension [11] (.hash (some (toyHash hiLeaf)))

/-- The root's children as held in memory: child `a` is the extension's reference. -/
def hiRootChildren (i : Fin 17) : Node Nat := if i = 10 then .hash (some (toyHash hiExt)) else .hash none

/-- The root branch. -/
def hiRoot : Node Nat := .branch hiRootChildren

/-- The trie with `hiRoot` in memory and all three nodes in its store. -/
def hiTrie : Trie Nat (Node Nat) :=
  { root := hiRoot, store := toyStore [toyEncode hiRoot, hiExt, hiLeaf] }

theorem hiTrie_wellStored : hiTrie.WellStored toyCodec := by
  have hroot : Canon toyCodec hiTrie.store hiRoot := by
    refine ⟨?_, toyCodec_decode_encode _⟩
    show toyStore [toyEncode hiRoot, hiExt, hiLeaf] (toyHash (toyEncode hiRoot)) = some (toyEncode hiRoot)
    exact toyStore_cons_self _ _
  have hext : Canon toyCodec hiTrie.store hiExt := by
    refine ⟨?_, rfl⟩
    show toyStore [toyEncode hiRoot, hiExt, hiLeaf] (toyHash hiExt) = some hiExt
    rw [toyStore_cons_of_ne _ (by decide), toyStore_cons_self]
  have hleaf : Canon toyCodec hiTrie.store hiLeaf := by
    refine ⟨?_, rfl⟩
    show toyStore [toyEncode hiRoot, hiExt, hiLeaf] (toyHash hiLeaf) = some hiLeaf
    rw [toyStore_cons_of_ne _ (by decide), toyStore_cons_of_ne _ (by decide), toyStore_cons_self]
  have hextRef : (hiTrie.store (toyHash hiExt)).isSome := by decide
  have hchildren : ∀ i, Stored toyCodec hiTrie.store (hiRootChildren i) := by
    intro i
    unfold hiRootChildren
    split
    · exact .hash _ fun x hx => by cases hx; exact hextRef
    · exact .hash _ fun x hx => by cases hx
  have hrootEnc : Stored toyCodec hiTrie.store (toyEncode hiRoot) := by
    refine .branch _ ⟨hroot.1, toyCodec_decode_encode _⟩ fun i => .hash _ fun x hx => ?_
    by_cases hi : i = 10 <;> simp [hiRootChildren, hi] at hx
    exact hx ▸ hextRef
  refine ⟨fun h data hd => ?_, .branch _ hroot hchildren⟩
  have hmem := List.mem_of_find?_eq_some hd
  have hhash : toyHash data = h := by simpa using List.find?_some hd
  refine ⟨hhash, data, rfl, ?_⟩
  simp only [List.mem_cons, List.mem_singleton, List.not_mem_nil, or_false] at hmem
  rcases hmem with rfl | rfl | rfl
  · exact ⟨rfl, rfl, hrootEnc⟩
  · exact ⟨rfl, rfl, .extension _ _ hext (.hash _ fun x hx => by cases hx; decide)⟩
  · exact ⟨rfl, rfl, .leaf _ hleaf⟩

theorem hiTrie_mapsTo : hiTrie.MapsTo toyCodec [0xab] [104, 105] :=
  .branch _ _ _ (.hash _ hiExt hiExt _ _ rfl rfl
    (.extension _ _ _ _ rfl (.hash _ hiLeaf hiLeaf _ _ rfl rfl (.leaf _))))

/-- `GetProof` on `hiTrie` and `VerifyProof` with its root hash agree on `"hi"`. -/
theorem hiTrie_verifyProof_getProof :
    ∃ N, ∀ fuel, N ≤ fuel → ∃ proof t', hiTrie.GetProof toyCodec fuel [0xab] = ((proof, none), t') ∧
      verifyProof toyCodec fuel (toyHash (toyEncode hiRoot)) [0xab] proof = ([104, 105], true) :=
  verifyProof_getProof hiTrie_wellStored hiTrie_mapsTo rfl

/-! ## Soundness -/

/-- The verifier's node `x` stands for the trie's node `n`: it is `n`'s reference, or `n`
decoded with its children as references. -/
def Mirror (c : Codec H B) (x n : Node H) : Prop :=
  x = c.ref n ∨ (x = c.shallow n ∧ n.isHash = false)

omit [DecidableEq H] in
/-- **The verifier's descent is a descent of the trie**, when the verifier's store agrees
with the trie's store wherever both hold something. -/
theorem mapsTo_of_mirror {store vstore : H → Option B} (hok : StoreOk c store)
    (hagree : ∀ h e data, vstore h = some e → store h = some data → e = data)
    {x : Node H} {path : List (Fin 16)} {value : List UInt8} (hv : MapsTo c vstore x path value) :
    ∀ n, Mirror c x n → Stored c store n → MapsTo c store n path value := by
  induction hv with
  | leaf v =>
    rintro n (hx | ⟨hx, -⟩) -
    · cases n <;> cases hx
    · cases n <;> cases hx; exact .leaf v
  | branch children path value _ ih =>
    rintro n (hx | ⟨hx, -⟩) hs
    · cases n <;> cases hx
    · cases n with
      | branch cs =>
        cases hx
        have hcs : ∀ i, Stored c store (cs i) := by cases hs; assumption
        exact .branch cs path value (ih _ (.inl rfl) (hcs _))
      | _ => cases hx
  | extension key next path value hpre _ ih =>
    rintro n (hx | ⟨hx, -⟩) hs
    · cases n <;> cases hx
    · cases n with
      | extension k nx =>
        cases hx
        have hnx : Stored c store nx := by cases hs; assumption
        exact .extension key nx path value hpre (ih nx (.inl rfl) hnx)
      | _ => cases hx
  | hash h e d path value hvst hdec _ ih =>
    rintro n (hx | ⟨hx, hres⟩) hs
    · by_cases hres : n.isHash
      · -- a reference: resolve it in the trie's store
        cases n with
        | hash h' =>
          cases hx
          obtain ⟨data, hdata⟩ := Option.isSome_iff_exists.mp (by cases hs; rename_i hh; exact hh h rfl)
          obtain ⟨-, n', hdec', henc, hres', hstored⟩ := hok h data hdata
          obtain rfl := hagree h e data hvst hdata
          obtain rfl : n' = d := Option.some.inj (hdec'.symm.trans hdec)
          have hshallow : n' = c.shallow n' :=
            Option.some.inj (by rw [← (hstored.canon hres').2, henc, hdec'])
          exact .hash h e n' path value hdata hdec' (ih n' (.inr ⟨hshallow, hres'⟩) hstored)
        | _ => cases hres
      · -- a resolved node of the trie: its encoding is what the verifier read
        have hcanon : Canon c store n := hs.canon (Bool.eq_false_iff.mpr hres)
        have hh : c.hash (c.encode n) = h := by
          rw [Codec.ref, c.nodeHash_of_not_isHash (Bool.eq_false_iff.mpr hres)] at hx
          cases hx; rfl
        obtain rfl := hagree h e _ hvst (hh ▸ hcanon.1)
        obtain rfl : d = c.shallow n := Option.some.inj (hdec.symm.trans hcanon.2)
        exact ih n (.inr ⟨rfl, Bool.eq_false_iff.mpr hres⟩) hs
    · cases n <;> cases hx; cases hres

/-- **Soundness of inclusion proofs.** If `VerifyProof` accepts a proof for `key` under the
root hash `rh` with `value`, then every trie whose root has hash `rh` and whose nodes are
stored under their hashes maps `key` to `value`, as long as no proof element collides with
an entry of the trie's store. -/
theorem verifyProof_sound {fuel : Nat} {rh : H} {key value : List UInt8} {proofs : List B}
    (hv : verifyProof c fuel rh key proofs = (value, true)) {t : Trie H B} (hw : t.WellStored c)
    (hrh : c.nodeHash t.root = some rh)
    (hinj : ∀ e ∈ proofs, ∀ h data, t.store h = some data → c.hash e = c.hash data → e = data) :
    t.MapsTo c key value := by
  have hrun : ∃ r, getWithPath c (proofStore c proofs) fuel (.hash (some rh)) (toNibbles key) =
      .ok (r, value) := by
    unfold verifyProof at hv
    split at hv
    · rename_i r bs hrun; cases hv; exact ⟨r, hrun⟩
    · cases hv
  obtain ⟨r, hrun⟩ := hrun
  have hagree : ∀ h e data, proofStore c proofs h = some e → t.store h = some data → e = data :=
    fun h e data he hd => by
      obtain ⟨hm, rfl⟩ := proofStore_eq_some he
      exact hinj e hm _ data hd ((hw.storeOk _ data hd).1).symm
  exact mapsTo_of_mirror hw.storeOk hagree (getWithPath_sound _ _ _ _ _ hrun) t.root
    (.inl (by rw [Codec.ref, hrh])) hw.stored

/-- A proof of `"hi"` for `hiTrie`'s root hash, checked by `VerifyProof`, and the collision
freedom it needs, make `hiTrie` map `0xab` to `"hi"`. -/
theorem hiTrie_verifyProof_sound :
    verifyProof toyCodec 8 (toyHash (toyEncode hiRoot)) [0xab]
      [toyEncode hiRoot, hiExt, hiLeaf] = ([104, 105], true) ∧ hiTrie.MapsTo toyCodec [0xab] [104, 105] := by
  have hv : verifyProof toyCodec 8 (toyHash (toyEncode hiRoot)) [0xab]
      [toyEncode hiRoot, hiExt, hiLeaf] = ([104, 105], true) := by decide
  refine ⟨hv, verifyProof_sound hv hiTrie_wellStored rfl fun e he h data hd hh => ?_⟩
  have hmem := List.mem_of_find?_eq_some hd
  simp only [List.mem_cons, List.mem_singleton, List.not_mem_nil, or_false] at he hmem
  rcases he with rfl | rfl | rfl <;> rcases hmem with rfl | rfl | rfl <;>
    first | rfl | exact absurd hh (by decide)

/-! ## What `GetProof` returns

On a well-stored trie every reference on the way resolves, so the descent stops with an error
only where the key leaves the trie (`ErrNotFound`), or where the model's fuel runs out.
-/

omit [DecidableEq H] in
/-- A descent that returns without error followed a `MapsTo`, and the proof it returns ends
with the encoding of the leaf it reached. -/
theorem getProof_ok_sound {store : H → Option B} :
    ∀ (fuel : Nat) (n : Node H) (path : List (Fin 16)) (acc ps : List B) (r : Node H),
      getProof c store fuel n path acc = (.ok r, ps) →
        ∃ value, MapsTo c store n path value ∧ ps.getLast? = some (c.encode (.leaf value))
  | 0, _, _, _, _, _, h => by simp [getProof] at h
  | fuel + 1, n, path, acc, ps, r, h => by
    cases n with
    | leaf v =>
      simp only [getProof] at h
      split at h
      · cases h; subst path; exact ⟨v, .leaf v, by simp⟩
      · cases h
    | branch children =>
      simp only [getProof] at h
      split at h
      · cases h
      · rename_i r' _ hrec
        cases h
        obtain ⟨v, hm, hl⟩ := getProof_ok_sound fuel _ _ _ _ r' hrec
        exact ⟨v, .branch children path v hm, hl⟩
    | extension key next =>
      simp only [getProof] at h
      split at h
      · rename_i hpre
        split at h
        · cases h
        · rename_i r' _ hrec
          cases h
          obtain ⟨v, hm, hl⟩ := getProof_ok_sound fuel _ _ _ _ r' hrec
          exact ⟨v, .extension key next path v hpre hm, hl⟩
      · cases h
    | hash h' =>
      rcases h' with _ | h'
      · simp [getProof] at h
      · simp only [getProof] at h
        split at h
        · cases h
        · rename_i n' hget
          obtain ⟨data, hst, hdec⟩ := getFromStore_eq_ok.mp hget
          obtain ⟨v, hm, hl⟩ := getProof_ok_sound fuel n' path acc ps r h
          exact ⟨v, .hash h' data n' path v hst hdec hm, hl⟩

omit [DecidableEq H] in
/-- Below a stored node every reference resolves: the descent's only errors are
`ErrNotFound` and the fuel running out. -/
theorem getProof_error_of_stored {store : H → Option B} (hok : StoreOk c store) :
    ∀ (fuel : Nat) (n : Node H) (path : List (Fin 16)) (acc ps : List B) (e : MptError),
      Stored c store n → getProof c store fuel n path acc = (.error e, ps) →
        e = .errNotFound ∨ e = .fuelExhausted
  | 0, _, _, _, _, _, _, h => by simp [getProof] at h; exact .inr h.1.symm
  | fuel + 1, n, path, acc, ps, e, hs, h => by
    cases n with
    | leaf v =>
      simp only [getProof] at h
      split at h <;> cases h
      exact .inl rfl
    | branch children =>
      have hchildren : ∀ i, Stored c store (children i) := by cases hs; assumption
      simp only [getProof] at h
      split at h
      · rename_i hrec
        cases h
        exact getProof_error_of_stored hok fuel _ _ _ _ _ (hchildren _) hrec
      · cases h
    | extension key next =>
      have hnext : Stored c store next := by cases hs; assumption
      simp only [getProof] at h
      split at h
      · split at h
        · rename_i hrec
          cases h
          exact getProof_error_of_stored hok fuel _ _ _ _ _ hnext hrec
        · cases h
      · cases h
        exact .inl rfl
    | hash h' =>
      rcases h' with _ | h'
      · simp only [getProof, Prod.mk.injEq, Except.error.injEq] at h
        exact .inl h.1.symm
      · obtain ⟨data, hdata⟩ :=
          Option.isSome_iff_exists.mp (by cases hs; rename_i hh; exact hh h' rfl)
        obtain ⟨-, n', hdec, -, -, hstored⟩ := hok h' data hdata
        have hget : getFromStore c store h' = .ok n' := getFromStore_eq_ok.mpr ⟨data, hdata, hdec⟩
        simp only [getProof, hget] at h
        exact getProof_error_of_stored hok fuel n' path acc ps e hstored h

omit [DecidableEq H] in
/-- Along a `MapsTo` every reference resolves and every prefix matches: the descent's only
error is the fuel running out. -/
theorem getProof_error_of_mapsTo {store : H → Option B} {n : Node H} {path : List (Fin 16)}
    {value : List UInt8} (hm : MapsTo c store n path value) :
    ∀ (fuel : Nat) (acc ps : List B) (e : MptError),
      getProof c store fuel n path acc = (.error e, ps) → e = .fuelExhausted := by
  induction hm with
  | leaf v =>
    rintro (_ | fuel) acc ps e h <;> simp [getProof] at h
    exact h.1.symm
  | branch children path value _ ih =>
    rintro (_ | fuel) acc ps e h
    · simp [getProof] at h; exact h.1.symm
    simp only [getProof] at h
    split at h
    · rename_i hrec
      cases h
      exact ih fuel _ _ _ hrec
    · cases h
  | extension key next path value hpre _ ih =>
    rintro (_ | fuel) acc ps e h
    · simp [getProof] at h; exact h.1.symm
    simp only [getProof, hpre, if_true] at h
    split at h
    · rename_i hrec
      cases h
      exact ih fuel _ _ _ hrec
    · cases h
  | hash h data n path value hst hdec _ ih =>
    rintro (_ | fuel) acc ps e hg
    · simp [getProof] at hg; exact hg.1.symm
    have hget : getFromStore c store h = .ok n := getFromStore_eq_ok.mpr ⟨data, hst, hdec⟩
    simp only [getProof, hget] at hg
    exact ih fuel acc ps e hg

omit [DecidableEq H] in
/-- **What `GetProof` returns on a well-stored trie**, with any fuel: no error only for a key
the trie maps to a value, with a proof ending in the encoding of the leaf holding it;
`ErrNotFound` only for a key the trie maps to nothing; and no error from the store. -/
theorem Trie.getProof_outcome {t : Trie H B} (hw : t.WellStored c) (fuel : Nat) (key : List UInt8) :
    (∃ value, (t.GetProof c fuel key).1.2 = none ∧ t.MapsTo c key value ∧
        (t.GetProof c fuel key).1.1.getLast? = some (c.encode (.leaf value))) ∨
      ((t.GetProof c fuel key).1.2 = some .errNotFound ∧ ∀ value, ¬ t.MapsTo c key value) ∨
      (t.GetProof c fuel key).1.2 = some .fuelExhausted := by
  unfold Trie.GetProof
  rcases hg : getProof c t.store fuel t.root (toNibbles key) [] with ⟨e | r, ps⟩
  · rcases getProof_error_of_stored hw.storeOk fuel _ _ _ _ e hw.stored hg with rfl | rfl
    · exact .inr (.inl ⟨rfl, fun value hm => MptError.noConfusion
        (getProof_error_of_mapsTo hm fuel _ _ _ hg)⟩)
    · exact .inr (.inr rfl)
  · obtain ⟨value, hm, hl⟩ := getProof_ok_sound fuel _ _ _ _ _ hg
    exact .inl ⟨value, rfl, hm, hl⟩

/-- `GetProof` on `hiTrie` for the key of `"hi"`, with fuel `5`. -/
theorem hiTrie_getProof_outcome : hiTrie.WellStored toyCodec ∧
    ((∃ value, (hiTrie.GetProof toyCodec 5 [0xab]).1.2 = none ∧ hiTrie.MapsTo toyCodec [0xab] value ∧
        (hiTrie.GetProof toyCodec 5 [0xab]).1.1.getLast? = some (toyCodec.encode (.leaf value))) ∨
      ((hiTrie.GetProof toyCodec 5 [0xab]).1.2 = some .errNotFound ∧
        ∀ value, ¬ hiTrie.MapsTo toyCodec [0xab] value) ∨
      (hiTrie.GetProof toyCodec 5 [0xab]).1.2 = some .fuelExhausted) :=
  ⟨hiTrie_wellStored, Trie.getProof_outcome hiTrie_wellStored 5 [0xab]⟩

end NeoGo.Mpt
