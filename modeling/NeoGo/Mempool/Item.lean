import Mathlib.Data.Prod.Lex
import Mathlib.Order.Basic
import Mathlib.Data.Fintype.Order
import Mathlib.Algebra.Order.Ring.Int
import Mathlib.Order.CompletePartialOrder

/-! # Pool items and their priority order

The memory pool (`pkg/core/mempool`) holds transactions wrapped in items, ranked by
`item.CompareTo`: normal priority before low, then fee per byte, then network fee, then the
smaller hash. The model is generic in the hash, sender and input types; hashes and inputs
need only a linear order (`Uint256.CompareTo` and `Input.Cmp` are total), senders only
equality. `Fixed8` is Go's `int64`, so fee sums wrap.

`compareTo_eq_cmpInt_key` reads the cascade of comparisons as one lexicographic key, and the
rest of the file takes what the pool needs from the key's linear order.
-/

namespace NeoGo.Mempool

/-- `util.Fixed8`: a signed 64-bit amount of 10⁻⁸ units. -/
abbrev Fixed8 := BitVec 64

/-- The result of a Go `CompareTo`: negative, zero or positive as `a` is below, equal to or
above `b`. -/
def cmpInt {α : Type} [LinearOrder α] (a b : α) : Int :=
  if a < b then -1 else if a = b then 0 else 1

/-- Modelled from the spec: `util.Fixed8.CompareTo` is not among the sources; it compares the
signed values. -/
def Fixed8.compareTo (f g : Fixed8) : Int := cmpInt f.toInt g.toInt

/-- The fields of `transaction.Transaction` the pool reads. -/
structure Transaction (H S I : Type) where
  hash : H
  sender : S
  systemFee : Fixed8
  networkFee : Fixed8
  size : Nat
  inputs : List I
  deriving DecidableEq

/-- Modelled from the spec: `Transaction.FeePerByte` is not among the sources; it is the
network fee divided by the transaction's size. -/
def Transaction.feePerByte {H S I : Type} (t : Transaction H S I) : Fixed8 :=
  t.networkFee.sdiv (BitVec.ofNat 64 t.size)

/-- The two methods of the `Feer` interface the pool calls. -/
structure Feer (S : Type) where
  getUtilityTokenBalance : S → Fixed8
  isLowPriority : Fixed8 → Bool

/-- `item`, without its admission time, which no operation reads. -/
structure Item (H S I : Type) where
  txn : Transaction H S I
  isLowPrio : Bool
  deriving DecidableEq

variable {H S I : Type} [LinearOrder H]

def Item.compareTo (p otherP : Item H S I) : Int :=
  if !p.isLowPrio && otherP.isLowPrio then 1
  else if p.isLowPrio && !otherP.isLowPrio then -1
  else
    let ret := Fixed8.compareTo p.txn.feePerByte otherP.txn.feePerByte
    if ret ≠ 0 then ret
    else
      let ret := Fixed8.compareTo p.txn.networkFee otherP.txn.networkFee
      if ret ≠ 0 then ret else cmpInt otherP.txn.hash p.txn.hash

/-- `p` outranks `q`: `p.CompareTo(q) > 0`. -/
def Item.Outranks (p q : Item H S I) : Prop := 0 < p.compareTo q

instance : DecidableRel (@Item.Outranks H S I _) := fun p q =>
  inferInstanceAs (Decidable (0 < p.compareTo q))

/-! ## The key -/

/-- The priority of an item as one lexicographic key. -/
def Item.key (p : Item H S I) : Bool ×ₗ Int ×ₗ Int ×ₗ Hᵒᵈ :=
  toLex (!p.isLowPrio, toLex (p.txn.feePerByte.toInt,
    toLex (p.txn.networkFee.toInt, OrderDual.toDual p.txn.hash)))

theorem cmpInt_toLex {α β : Type} [LinearOrder α] [LinearOrder β] (a c : α) (b d : β) :
    cmpInt (toLex (a, b)) (toLex (c, d)) = if cmpInt a c ≠ 0 then cmpInt a c else cmpInt b d := by
  unfold cmpInt
  simp only [Prod.Lex.lt_iff, EmbeddingLike.apply_eq_iff_eq, Prod.mk.injEq]
  rcases lt_trichotomy a c with h | rfl | h
  · simp [h, h.ne]
  · simp
  · simp [h.ne', not_lt_of_gt h]

theorem cmpInt_toDual {α : Type} [LinearOrder α] (a b : α) :
    cmpInt (OrderDual.toDual a) (OrderDual.toDual b) = cmpInt b a := by
  unfold cmpInt
  simp only [OrderDual.toDual_lt_toDual, EmbeddingLike.apply_eq_iff_eq]
  rcases lt_trichotomy a b with h | rfl | h
  · simp [h, h.ne, h.ne', not_lt_of_gt h]
  · simp
  · simp [h, h.ne']

theorem cmpInt_pos_iff {α : Type} [LinearOrder α] {a b : α} : 0 < cmpInt a b ↔ b < a := by
  unfold cmpInt
  rcases lt_trichotomy a b with h | rfl | h
  · simp [h, h.le]
  · simp
  · simp [h, not_lt_of_gt h, h.ne']

theorem cmpInt_self {α : Type} [LinearOrder α] (a : α) : cmpInt a a = 0 := by simp [cmpInt]

theorem cmpInt_false_true : cmpInt false true = -1 := rfl

theorem cmpInt_true_false : cmpInt true false = 1 := rfl

/-- **The cascade of `item.CompareTo` is the comparison of keys.** -/
theorem compareTo_eq_cmpInt_key (p q : Item H S I) : p.compareTo q = cmpInt p.key q.key := by
  simp only [Item.key, cmpInt_toLex, cmpInt_toDual, Item.compareTo, Fixed8.compareTo]
  cases p.isLowPrio <;> cases q.isLowPrio <;>
    simp [cmpInt_self, cmpInt_false_true, cmpInt_true_false]

theorem outranks_iff_key {p q : Item H S I} : p.Outranks q ↔ q.key < p.key := by
  rw [Item.Outranks, compareTo_eq_cmpInt_key, cmpInt_pos_iff]

instance : IsTrans (Item H S I) Item.Outranks :=
  ⟨fun _ _ _ h₁ h₂ => outranks_iff_key.mpr (lt_trans (outranks_iff_key.mp h₂) (outranks_iff_key.mp h₁))⟩

instance : IsIrrefl (Item H S I) Item.Outranks := ⟨fun _ h => lt_irrefl _ (outranks_iff_key.mp h)⟩

theorem outranks_or_of_hash_ne {p q : Item H S I} (h : p.txn.hash ≠ q.txn.hash) :
    p.Outranks q ∨ q.Outranks p := by
  rw [outranks_iff_key, outranks_iff_key]
  rcases lt_trichotomy p.key q.key with hlt | heq | hgt
  · exact .inr hlt
  · simp only [Item.key, EmbeddingLike.apply_eq_iff_eq, Prod.mk.injEq] at heq
    exact absurd heq.2.2.2 h
  · exact .inl hgt

theorem not_outranks_both {p q : Item H S I} (h : p.Outranks q) : ¬ q.Outranks p :=
  fun h' => lt_asymm (outranks_iff_key.mp h) (outranks_iff_key.mp h')

instance : IsAntisymm (Item H S I) Item.Outranks := ⟨fun _ _ h h' => absurd h' (not_outranks_both h)⟩

end NeoGo.Mempool
