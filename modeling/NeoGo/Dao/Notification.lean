import NeoGo.Dao.Block

/-! # Application execution results

The execution results of a transaction or block are kept under `STNotification || hash` as the
bare concatenation of their serialisations. `AppendAppExecResult` writes the first one with
`PutAppExecResult` and appends each later one to the record; `GetAppExecResults` decodes
records until its reader reports `io.EOF` and keeps those whose trigger meets the mask.

Under a codec whose decode inverts its encode and reports `io.EOF` on no bytes, the records
read back in the order they were written (`getAppExecResults_appended`). The proof is one
lemma per side: the appends leave the concatenation of the encodings in the store
(`get_foldl_appendAppExecResult`), and the loop reads a concatenation back record by record,
one round of fuel per record (`readAppExecResults_flatMap`).
-/

namespace NeoGo.Dao

/-- The error a `BinReader` is left with. -/
inductive ReadError where
  /-- `io.EOF`: nothing was left to read. -/
  | eof
  /-- Any other error. -/
  | invalid
  deriving DecidableEq

/-- Modelled from the spec: `state.AppExecResult` and its serialisation are not among the
sources. -/
structure AerCodec (R : Type) where
  /-- `aer.Container`. -/
  container : R → Uint256
  /-- `aer.Trigger`, a `trigger.Type`. -/
  trigger : R → UInt8
  /-- `EncodeBinary`. -/
  encode : R → Bytes
  /-- `DecodeBinary` from a reader over the bytes: the result and the bytes left, or the
  reader's error. -/
  decode : Bytes → Except ReadError (R × Bytes)

/-- The loop of `GetAppExecResults` on the bytes its reader has left, `result` the results so
far; `none` when the fuel runs out. -/
def AerCodec.readAppExecResults {R : Type} (ac : AerCodec R) (trig : UInt8) :
    Nat → List R → Bytes → Option (Except DaoError (List R))
  | 0, _, _ => none
  | fuel + 1, result, b =>
    match ac.decode b with
    | .error .eof => some (.ok result)
    | .error .invalid => some (.error .errDecode)
    | .ok (aer, rest) =>
      ac.readAppExecResults trig fuel
        (if ac.trigger aer &&& trig != 0 then result ++ [aer] else result) rest

namespace Simple

variable {A C N R : Type} (ac : AerCodec R) (s : Simple) (h : Heap A C N)

/-- `GetAppExecResults`, with fuel for its loop. -/
def getAppExecResults (hash : Uint256) (trig : UInt8) (fuel : Nat) :
    Option (Except DaoError (List R)) :=
  match h.get s.chain (appendPrefix .stNotification hash.bytesBE) with
  | none => some (.error .errKeyNotFound)
  | some aers => ac.readAppExecResults trig fuel [] aers

def putAppExecResult (aer : R) : Heap A C N :=
  s.put h (appendPrefix .stNotification (ac.container aer).bytesBE) (ac.encode aer)

/-- `AppendAppExecResult`; a missing record reads as no bytes. -/
def appendAppExecResult (aer : R) : Heap A C N :=
  let key := appendPrefix .stNotification (ac.container aer).bytesBE
  let aers := (h.get s.chain key).getD []
  if aers.length = 0 then s.putAppExecResult ac h aer
  else s.put h key (aers ++ ac.encode aer)

end Simple

section Codec

variable {R : Type} {ac : AerCodec R}
  (hdec : ∀ r rest, ac.decode (ac.encode r ++ rest) = .ok (r, rest))
  (heof : ac.decode [] = .error .eof)

include hdec heof

theorem AerCodec.encode_ne_nil (r : R) : ac.encode r ≠ [] := fun he => by
  have hr := hdec r []
  rw [he, List.nil_append, heof] at hr
  cases hr

/-- The loop reads a concatenation of records to its end, one round per record and one for
`io.EOF`, keeping the records the mask meets. -/
theorem AerCodec.readAppExecResults_flatMap (trig : UInt8) (aers : List R) :
    ∀ (result : List R) (fuel : Nat), aers.length < fuel →
      ac.readAppExecResults trig fuel result (aers.flatMap ac.encode) =
        some (.ok (result ++ aers.filter fun a => ac.trigger a &&& trig != 0)) := by
  induction aers with
  | nil =>
    rintro result (_ | fuel) hfuel
    · cases hfuel
    · simp [readAppExecResults, heof]
  | cons a aers ih =>
    rintro result (_ | fuel) hfuel
    · cases hfuel
    · simp only [List.length_cons, Nat.add_lt_add_iff_right] at hfuel
      rw [List.flatMap_cons, readAppExecResults, hdec]
      dsimp only
      rw [ih _ _ hfuel]
      by_cases ht : (ac.trigger a &&& trig != 0) = true <;> simp [List.filter_cons, ht]

variable {A C N : Type} (s : Simple)

/-- The appends leave the concatenation of all the encodings under the container's key. -/
theorem get_foldl_appendAppExecResult {hash : Uint256} (aers : List R)
    (hc : ∀ a ∈ aers, ac.container a = hash) :
    ∀ (pre : List R) (h : Heap A C N), pre ≠ [] →
      h.get s.chain (appendPrefix .stNotification hash.bytesBE) = some (pre.flatMap ac.encode) →
      (aers.foldl (s.appendAppExecResult ac) h).get s.chain
          (appendPrefix .stNotification hash.bytesBE) = some ((pre ++ aers).flatMap ac.encode) := by
  induction aers with
  | nil => intro pre h _ hh; simpa using hh
  | cons a aers ih =>
    intro pre h hpre hh
    have hlen : (pre.flatMap ac.encode).length ≠ 0 := by
      obtain ⟨p, ps, rfl⟩ := List.exists_cons_of_ne_nil hpre
      simp [AerCodec.encode_ne_nil hdec heof p]
    rw [List.foldl_cons, List.append_cons pre a aers]
    refine ih (fun x hx => hc x (List.mem_cons_of_mem a hx)) _ _ (by simp) ?_
    simp only [Simple.appendAppExecResult, hc a (List.mem_cons_self a aers), hh, Option.getD_some,
      hlen, if_false, Simple.get_put_self, List.flatMap_append, List.flatMap_singleton]

theorem getAppExecResults_of_get {hash : Uint256} {h : Heap A C N} {aers : List R}
    (hh : h.get s.chain (appendPrefix .stNotification hash.bytesBE) = some (aers.flatMap ac.encode))
    (trig : UInt8) {fuel : Nat} (hfuel : aers.length < fuel) :
    s.getAppExecResults ac h hash trig fuel =
      some (.ok (aers.filter fun a => ac.trigger a &&& trig != 0)) := by
  rw [Simple.getAppExecResults, hh]
  dsimp only
  rw [AerCodec.readAppExecResults_flatMap hdec heof trig aers [] fuel hfuel, List.nil_append]

/-- **The appended results read back in write order**, those the mask meets: from a store
with no record for the container, or after a put of the first. -/
theorem getAppExecResults_appended (hash : Uint256) (aer : R) (aers : List R)
    (hc : ∀ a ∈ aer :: aers, ac.container a = hash) (h : Heap A C N) (trig : UInt8) :
    ∃ n, ∀ fuel, n ≤ fuel →
      (h.get s.chain (appendPrefix .stNotification hash.bytesBE) = none →
        s.getAppExecResults ac ((aer :: aers).foldl (s.appendAppExecResult ac) h) hash trig fuel =
          some (.ok ((aer :: aers).filter fun a => ac.trigger a &&& trig != 0))) ∧
      s.getAppExecResults ac (aers.foldl (s.appendAppExecResult ac) (s.putAppExecResult ac h aer))
          hash trig fuel =
        some (.ok ((aer :: aers).filter fun a => ac.trigger a &&& trig != 0)) := by
  have hput : (s.putAppExecResult ac h aer).get s.chain (appendPrefix .stNotification hash.bytesBE) =
      some ([aer].flatMap ac.encode) := by
    simp [Simple.putAppExecResult, hc aer (List.mem_cons_self aer aers)]
  have hrest := get_foldl_appendAppExecResult hdec heof s aers
    (fun x hx => hc x (List.mem_cons_of_mem aer hx)) [aer] _ (List.cons_ne_nil aer []) hput
  refine ⟨aers.length + 2, fun fuel hfuel => ⟨fun hnone => ?_, ?_⟩⟩
  · have hfirst : s.appendAppExecResult ac h aer = s.putAppExecResult ac h aer := by
      simp [Simple.appendAppExecResult, hc aer (List.mem_cons_self aer aers), hnone]
    rw [List.foldl_cons, hfirst]
    exact getAppExecResults_of_get hdec heof s hrest trig (by simp; omega)
  · exact getAppExecResults_of_get hdec heof s hrest trig (by simp; omega)

end Codec

/-- A codec for the examples: a result is its trigger and one byte, serialised as those two
bytes, its container always `hashOf 1`. -/
def pairAerCodec : AerCodec (UInt8 × UInt8) where
  container _ := hashOf 1
  trigger r := r.1
  encode r := [r.1, r.2]
  decode
    | [] => .error .eof
    | [_] => .error .invalid
    | t :: b :: rest => .ok ((t, b), rest)

/-- Three results of triggers 1, 2 and 4 appended to an empty store, or put and appended, read
with the mask 5: the first and the third. -/
theorem getAppExecResults_three_appended :
    (∀ r rest, pairAerCodec.decode (pairAerCodec.encode r ++ rest) = .ok (r, rest)) ∧
      pairAerCodec.decode [] = .error .eof ∧
      (∀ a ∈ [((1 : UInt8), (7 : UInt8)), (2, 8), (4, 9)], pairAerCodec.container a = hashOf 1) ∧
      ∃ n, ∀ fuel, n ≤ fuel →
        ((newSimple 0 [] false false emptyHeap).2.get (newSimple 0 [] false false emptyHeap).1.chain
            (appendPrefix .stNotification (hashOf 1).bytesBE) = none →
          (newSimple 0 [] false false emptyHeap).1.getAppExecResults pairAerCodec
            ([((1 : UInt8), (7 : UInt8)), (2, 8), (4, 9)].foldl
              ((newSimple 0 [] false false emptyHeap).1.appendAppExecResult pairAerCodec)
              (newSimple 0 [] false false emptyHeap).2) (hashOf 1) 5 fuel = some (.ok [(1, 7), (4, 9)])) ∧
        (newSimple 0 [] false false emptyHeap).1.getAppExecResults pairAerCodec
            ([((2 : UInt8), (8 : UInt8)), (4, 9)].foldl
              ((newSimple 0 [] false false emptyHeap).1.appendAppExecResult pairAerCodec)
              ((newSimple 0 [] false false emptyHeap).1.putAppExecResult pairAerCodec
                (newSimple 0 [] false false emptyHeap).2 (1, 7))) (hashOf 1) 5 fuel =
          some (.ok [(1, 7), (4, 9)]) :=
  ⟨fun _ _ => rfl, rfl, fun _ _ => rfl,
    getAppExecResults_appended (fun _ _ => rfl) rfl (newSimple 0 [] false false emptyHeap).1
      (hashOf 1) (1, 7) [(2, 8), (4, 9)] (fun _ _ => rfl) (newSimple 0 [] false false emptyHeap).2 5⟩

end NeoGo.Dao
