import Mathlib.Data.Fin.Basic
import Mathlib.Logic.Function.Basic

/-! # Trie nodes, the node store and the radix descent

The Merkle-Patricia trie (`pkg/core/mpt`) keeps its nodes in a key-value store under the
hashes of their encodings. In memory a trie is a tree whose subtrees are either resolved or
hash nodes that stand for a node still in the store. The byte format of nodes and the hash
function are not among the sources: `Codec` takes them as parameters, and every assumption
made about them is a hypothesis of the theorem that needs it.

`getWithPath` is the descent `Get` and `VerifyProof` run, with a fuel bound on its recursion,
which the source does not have. `MapsTo` is the same descent as a relation, without fuel;
`getWithPath_sound` and `getWithPath_complete` say that the function computes it.
-/

namespace NeoGo.Mpt

/-- `mpt.Node`: a leaf with its value, a branch with sixteen nibble-indexed children and a
value slot, an extension with a compressed nibble path, or a hash node standing for a node
in the store (`none` is the empty hash node). -/
inductive Node (H : Type) where
  | leaf (value : List UInt8)
  | branch (children : Fin 17 → Node H)
  | extension (key : List (Fin 16)) (next : Node H)
  | hash (h : Option H)

variable {H B : Type}

/-- Whether a node is a hash node. -/
def Node.isHash : Node H → Bool
  | .hash _ => true
  | _ => false

/-- Modelled from the spec: the node codec is not among the sources. `hash` is
`hash.DoubleSha256`, `encode` is `Node.Bytes` (the canonical serialization, which sees each
child only through its hash) and `decode` is `NodeObject.DecodeBinary`. -/
structure Codec (H B : Type) where
  hash : B → H
  encode : Node H → B
  decode : B → Option (Node H)

namespace Codec

variable (c : Codec H B)

/-- `Node.Hash`: a hash node's own hash, otherwise the hash of the node's encoding; `none`
for the empty hash node. -/
def nodeHash : Node H → Option H
  | .hash h => h
  | n => some (c.hash (c.encode n))

/-- `NewHashNode(n.Hash())`: the reference a parent's encoding holds for `n`. -/
def ref (n : Node H) : Node H := .hash (c.nodeHash n)

/-- The node as its encoding describes it: each child replaced by its reference. -/
def shallow : Node H → Node H
  | .branch children => .branch fun i => c.ref (children i)
  | .extension key next => .extension key (c.ref next)
  | n => n

theorem nodeHash_of_not_isHash {n : Node H} (hn : n.isHash = false) :
    c.nodeHash n = some (c.hash (c.encode n)) := by
  cases n <;> first | rfl | cases hn

/-- The encoding sees each child only through its reference, as `Node.Bytes` writes a hash
node for every child: a node and its shallow form encode alike. -/
def Canonical : Prop := ∀ n, c.encode (c.shallow n) = c.encode n

end Codec

/-- Modelled from the spec: `toNibbles` is not among the sources; every byte gives its high
nibble, then its low one. -/
def toNibbles (path : List UInt8) : List (Fin 16) :=
  path.flatMap fun b => [Fin.ofNat (b >>> 4).toNat, Fin.ofNat (b &&& 0x0F).toNat]

/-- `lastChild`: the value slot of a branch. -/
def lastChild : Fin 17 := Fin.last 16

/-- Modelled from the spec: `splitPath` is not among the sources; a branch consumes one
nibble, or none on an empty path, which goes to the value slot. -/
def splitPath : List (Fin 16) → Fin 17 × List (Fin 16)
  | [] => (lastChild, [])
  | i :: path => (i.castSucc, path)

/-- The errors of the descent. -/
inductive MptError where
  /-- `ErrNotFound`. -/
  | errNotFound
  /-- `storage.ErrKeyNotFound`, from the store. -/
  | errKeyNotFound
  /-- The reader's error after `DecodeBinary`. -/
  | errDecode
  /-- The model's bound on the recursion ran out; the source recurses without one. -/
  | fuelExhausted
  deriving DecidableEq

/-- `Trie`: the root as held in memory, and the node store by hash (`makeStorageKey` puts
the same prefix before every hash, and is left out). -/
structure Trie (H B : Type) where
  root : Node H
  store : H → Option B

/-- Modelled from the spec: `Trie.getFromStore` is not among the sources; it reads the bytes
stored under the hash and decodes them. -/
def getFromStore (c : Codec H B) (store : H → Option B) (h : H) : Except MptError (Node H) :=
  match store h with
  | none => .error .errKeyNotFound
  | some data =>
    match c.decode data with
    | none => .error .errDecode
    | some n => .ok n

/-- Modelled from the spec: `Trie.getWithPath` is not among the sources. It descends as
`getProof` does, resolving hash nodes from the store, and returns the node with what it
resolved put in place, and the leaf's value. -/
def getWithPath (c : Codec H B) (store : H → Option B) :
    Nat → Node H → List (Fin 16) → Except MptError (Node H × List UInt8)
  | 0, _, _ => .error .fuelExhausted
  | fuel + 1, curr, path =>
    match curr with
    | .leaf value => if path = [] then .ok (curr, value) else .error .errNotFound
    | .branch children =>
      let (i, path) := splitPath path
      match getWithPath c store fuel (children i) path with
      | .error e => .error e
      | .ok (r, bs) => .ok (.branch (Function.update children i r), bs)
    | .extension key next =>
      if path.take key.length = key then
        match getWithPath c store fuel next (path.drop key.length) with
        | .error e => .error e
        | .ok (r, bs) => .ok (.extension key r, bs)
      else .error .errNotFound
    | .hash none => .error .errNotFound
    | .hash (some h) =>
      match getFromStore c store h with
      | .error e => .error e
      | .ok r => getWithPath c store fuel r path

/-- The trie below `n` maps `path` to `value`: the radix descent, with references resolved
in the store. -/
inductive MapsTo (c : Codec H B) (store : H → Option B) :
    Node H → List (Fin 16) → List UInt8 → Prop
  | leaf (value : List UInt8) : MapsTo c store (.leaf value) [] value
  | branch (children : Fin 17 → Node H) (path : List (Fin 16)) (value : List UInt8) :
      MapsTo c store (children (splitPath path).1) (splitPath path).2 value →
      MapsTo c store (.branch children) path value
  | extension (key : List (Fin 16)) (next : Node H) (path : List (Fin 16)) (value : List UInt8) :
      path.take key.length = key → MapsTo c store next (path.drop key.length) value →
      MapsTo c store (.extension key next) path value
  | hash (h : H) (data : B) (n : Node H) (path : List (Fin 16)) (value : List UInt8) :
      store h = some data → c.decode data = some n → MapsTo c store n path value →
      MapsTo c store (.hash (some h)) path value

/-- The trie maps `key` to `value`. -/
def Trie.MapsTo (c : Codec H B) (t : Trie H B) (key : List UInt8) (value : List UInt8) : Prop :=
  NeoGo.Mpt.MapsTo c t.store t.root (toNibbles key) value

section Descent

variable {c : Codec H B} {store : H → Option B}

theorem getFromStore_eq_ok {h : H} {n : Node H} :
    getFromStore c store h = .ok n ↔ ∃ data, store h = some data ∧ c.decode data = some n := by
  unfold getFromStore
  split
  · simp_all
  · split <;> simp_all

theorem mapsTo_branch_iff {children : Fin 17 → Node H} {path : List (Fin 16)}
    {value : List UInt8} :
    MapsTo c store (.branch children) path value ↔
      MapsTo c store (children (splitPath path).1) (splitPath path).2 value :=
  ⟨fun h => by cases h; assumption, .branch _ _ _⟩

theorem mapsTo_extension_iff {key : List (Fin 16)} {next : Node H} {path : List (Fin 16)}
    {value : List UInt8} :
    MapsTo c store (.extension key next) path value ↔
      path.take key.length = key ∧ MapsTo c store next (path.drop key.length) value :=
  ⟨fun h => by cases h; exact ⟨‹_›, ‹_›⟩, fun h => .extension _ _ _ _ h.1 h.2⟩

theorem mapsTo_hash_iff {h : H} {path : List (Fin 16)} {value : List UInt8} :
    MapsTo c store (.hash (some h)) path value ↔
      ∃ data n, store h = some data ∧ c.decode data = some n ∧ MapsTo c store n path value :=
  ⟨fun hm => by cases hm; exact ⟨_, _, ‹_›, ‹_›, ‹_›⟩,
    fun ⟨_, _, hst, hdec, hm⟩ => .hash _ _ _ _ _ hst hdec hm⟩

/-- **A descent that returns a value follows `MapsTo`.** -/
theorem getWithPath_sound :
    ∀ (fuel : Nat) (n : Node H) (path : List (Fin 16)) (r : Node H) (value : List UInt8),
      getWithPath c store fuel n path = .ok (r, value) → MapsTo c store n path value
  | 0, _, _, _, _, h => by simp [getWithPath] at h
  | fuel + 1, n, path, r, value, h => by
    cases n with
    | leaf v =>
      simp only [getWithPath] at h
      split at h
      · cases h; subst path; exact .leaf _
      · cases h
    | branch children =>
      simp only [getWithPath] at h
      split at h
      · cases h
      · rename_i r' bs hrec
        cases h
        exact .branch children path value (getWithPath_sound fuel _ _ r' value hrec)
    | extension key next =>
      simp only [getWithPath] at h
      split at h
      · rename_i hpre
        split at h
        · cases h
        · rename_i r' bs hrec
          cases h
          exact .extension key next path value hpre (getWithPath_sound fuel _ _ r' value hrec)
      · cases h
    | hash h' =>
      rcases h' with _ | h'
      · simp [getWithPath] at h
      · simp only [getWithPath] at h
        split at h
        · cases h
        · rename_i n' hget
          obtain ⟨data, hst, hdec⟩ := getFromStore_eq_ok.mp hget
          exact .hash h' data n' path value hst hdec (getWithPath_sound fuel n' path r value h)

theorem fuel_succ {P : Nat → Prop} {N : Nat} (h : ∀ fuel, N ≤ fuel → P (fuel + 1)) :
    ∀ fuel, N + 1 ≤ fuel → P fuel
  | 0, hf => absurd hf (by omega)
  | fuel + 1, hf => h fuel (by omega)

/-- **Every `MapsTo` is found by the descent**, with any fuel from some bound on. -/
theorem getWithPath_complete {n : Node H} {path : List (Fin 16)} {value : List UInt8}
    (hm : MapsTo c store n path value) :
    ∃ N, ∀ fuel, N ≤ fuel → ∃ r, getWithPath c store fuel n path = .ok (r, value) := by
  induction hm with
  | leaf v => exact ⟨0 + 1, fuel_succ fun _ _ => ⟨.leaf v, by simp [getWithPath]⟩⟩
  | branch children path value _ ih =>
    obtain ⟨N, hN⟩ := ih
    rcases hsp : splitPath path with ⟨i, rest⟩
    refine ⟨N + 1, fuel_succ fun fuel hf => ?_⟩
    obtain ⟨r, hr⟩ := hN fuel hf
    rw [hsp] at hr
    exact ⟨.branch (Function.update children i r), by simp only [getWithPath, hsp, hr]⟩
  | extension key next path value hpre _ ih =>
    obtain ⟨N, hN⟩ := ih
    refine ⟨N + 1, fuel_succ fun fuel hf => ?_⟩
    obtain ⟨r, hr⟩ := hN fuel hf
    exact ⟨.extension key r, by simp only [getWithPath, hpre, if_true, hr]⟩
  | hash h data n path value hst hdec _ ih =>
    obtain ⟨N, hN⟩ := ih
    have hget : getFromStore c store h = .ok n := getFromStore_eq_ok.mpr ⟨data, hst, hdec⟩
    refine ⟨N + 1, fuel_succ fun fuel hf => ?_⟩
    obtain ⟨r, hr⟩ := hN fuel hf
    exact ⟨r, by simp only [getWithPath, hget, hr]⟩

end Descent

end NeoGo.Mpt
