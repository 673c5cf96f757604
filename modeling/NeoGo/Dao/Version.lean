import NeoGo.Dao.Dao

/-! # The DAO's version record

`Version.Bytes` writes the version's label, a zero byte, the storage prefix and a byte of three
feature flags; `FromBytes` scans for the first zero byte and reads the two bytes after it. The
two agree: a version whose label has no zero byte reads back as itself, and every record whose
first zero byte is third from the end and whose flag byte has only flag bits is the encoding
of the version it reads as. `GetVersion` reads what `PutVersion` wrote.
-/

namespace NeoGo.Dao

def stateRootInHeaderBit : UInt8 := 1

def p2pSigExtensionsBit : UInt8 := 2

def keepOnlyLatestStateBit : UInt8 := 4

/-- The bits a flag byte may have set. -/
def flagBits : UInt8 := stateRootInHeaderBit ||| p2pSigExtensionsBit ||| keepOnlyLatestStateBit

namespace Version

/-- Go's zero `Version`. -/
def zero : Version :=
  { storagePrefix := 0, stateRootInHeader := false, p2pSigExtensions := false,
    keepOnlyLatestState := false, value := [] }

/-- The flag byte `Bytes` builds. -/
def mask (v : Version) : UInt8 :=
  let mask : UInt8 := 0
  let mask := if v.stateRootInHeader then mask ||| stateRootInHeaderBit else mask
  let mask := if v.p2pSigExtensions then mask ||| p2pSigExtensionsBit else mask
  if v.keepOnlyLatestState then mask ||| keepOnlyLatestStateBit else mask

def bytes (v : Version) : Bytes := v.value ++ [0, v.storagePrefix, v.mask]

/-- `Version.FromBytes` on the receiver `v`: the version it leaves, or the error, before which
it writes nothing. -/
def fromBytes (v : Version) (data : Bytes) : Except DaoError Version :=
  if data.length = 0 then .error (.message "missing version") else
  let i := data.findIdx (· == 0)
  if i = data.length then .ok { v with value := data }
  else if data.length ≠ i + 3 then .error (.message "version is invalid")
  else
    let mask := data.getD (i + 2) 0
    .ok { value := data.take i
          storagePrefix := data.getD (i + 1) 0
          stateRootInHeader := mask &&& stateRootInHeaderBit != 0
          p2pSigExtensions := mask &&& p2pSigExtensionsBit != 0
          keepOnlyLatestState := mask &&& keepOnlyLatestStateBit != 0 }

theorem mask_flags (v : Version) :
    (v.mask &&& stateRootInHeaderBit != 0) = v.stateRootInHeader ∧
      (v.mask &&& p2pSigExtensionsBit != 0) = v.p2pSigExtensions ∧
      (v.mask &&& keepOnlyLatestStateBit != 0) = v.keepOnlyLatestState := by
  have hflags : ∀ a b c : Bool, (mask ⟨0, a, b, c, []⟩ &&& stateRootInHeaderBit != 0) = a ∧
      (mask ⟨0, a, b, c, []⟩ &&& p2pSigExtensionsBit != 0) = b ∧
      (mask ⟨0, a, b, c, []⟩ &&& keepOnlyLatestStateBit != 0) = c := by decide
  exact hflags v.stateRootInHeader v.p2pSigExtensions v.keepOnlyLatestState

/-- A byte with only flag bits is the flag byte of its flags. -/
theorem mask_of_flags {m : UInt8} (hm : m &&& flagBits = m) (p : UInt8) (value : Bytes) :
    mask { storagePrefix := p, stateRootInHeader := m &&& stateRootInHeaderBit != 0,
           p2pSigExtensions := m &&& p2pSigExtensionsBit != 0,
           keepOnlyLatestState := m &&& keepOnlyLatestStateBit != 0, value := value } = m := by
  have hlt : m.toNat < 8 := by
    rw [← hm, UInt8.and_toNat]
    exact Nat.lt_succ_of_le Nat.and_le_right
  have hsmall : ∀ n : Fin 8, mask
      { storagePrefix := 0, stateRootInHeader := UInt8.ofNat n &&& stateRootInHeaderBit != 0,
        p2pSigExtensions := UInt8.ofNat n &&& p2pSigExtensionsBit != 0,
        keepOnlyLatestState := UInt8.ofNat n &&& keepOnlyLatestStateBit != 0, value := [] } =
      UInt8.ofNat n := by decide
  have hm' : UInt8.ofNat m.toNat = m :=
    UInt8.toNat.inj (UInt8.toNat_ofNat_of_lt (Nat.lt_trans hlt (by decide)))
  rw [← hm']
  exact hsmall ⟨m.toNat, hlt⟩

theorem findIdx_zero_append {pre : Bytes} {a b c : UInt8} :
    (pre ++ [a, b, c]).findIdx (· == 0) = pre.length ↔ 0 ∉ pre ∧ a = 0 := by
  rw [List.findIdx_append]
  split
  · rename_i hlt
    obtain ⟨x, hx, hx0⟩ := List.findIdx_lt_length.mp hlt
    simp only [beq_iff_eq] at hx0
    exact iff_of_false (Nat.ne_of_lt hlt) fun h => h.1 (hx0 ▸ hx)
  · rename_i hge
    have hpre : 0 ∉ pre := fun h0 => hge (List.findIdx_lt_length.mpr ⟨0, h0, rfl⟩)
    by_cases ha : a = 0 <;> simp [List.findIdx_cons, cond_eq_if, ha, hpre]

theorem fromBytes_append {pre : Bytes} (hpre : 0 ∉ pre) (w : Version) (b c : UInt8) :
    w.fromBytes (pre ++ [0, b, c]) =
      .ok { value := pre, storagePrefix := b,
            stateRootInHeader := c &&& stateRootInHeaderBit != 0,
            p2pSigExtensions := c &&& p2pSigExtensionsBit != 0,
            keepOnlyLatestState := c &&& keepOnlyLatestStateBit != 0 } := by
  have hi := (findIdx_zero_append (b := b) (c := c)).mpr ⟨hpre, rfl⟩
  simp [fromBytes, hi, List.getD_eq_getElem?_getD, List.getElem_append_right, Nat.add_sub_cancel_left]

/-- **`FromBytes` reads back what `Bytes` writes**, whatever the receiver held. -/
theorem fromBytes_bytes (w v : Version) (hv : 0 ∉ v.value) : w.fromBytes v.bytes = .ok v := by
  obtain ⟨h1, h2, h3⟩ := mask_flags v
  rw [bytes, fromBytes_append hv, h1, h2, h3]

/-- **Every well-formed record is an encoding**: a record whose first zero byte is third from
the end, with only flag bits in its last byte, reads as a version that encodes to it. -/
theorem bytes_fromBytes (w : Version) {data : Bytes} {m : UInt8}
    (hi : data.findIdx (· == 0) + 3 = data.length) (hm : data.getLast? = some m)
    (hflags : m &&& flagBits = m) :
    ∃ v, w.fromBytes data = .ok v ∧ v.bytes = data := by
  obtain ⟨pre, a, b, c, rfl⟩ : ∃ pre a b c, data = pre ++ [a, b, c] := by
    have hlen : (data.drop (data.length - 3)).length = 3 := by simp; omega
    match hd : data.drop (data.length - 3), hlen with
    | [a, b, c], _ => exact ⟨_, a, b, c, by rw [← hd, List.take_append_drop]⟩
  have hfirst : (pre ++ [a, b, c]).findIdx (· == 0) = pre.length := by
    simp only [List.length_append, List.length_cons, List.length_nil] at hi; omega
  obtain ⟨hpre, rfl⟩ := findIdx_zero_append.mp hfirst
  obtain rfl : c = m := by simpa using hm
  exact ⟨_, fromBytes_append hpre w b c, by rw [bytes, mask_of_flags hflags]⟩

/-- The version record round trip, both ways. -/
theorem version_bytes_roundTrip :
    (∀ w v : Version, 0 ∉ v.value → w.fromBytes v.bytes = .ok v) ∧
      ∀ (w : Version) (data : Bytes) (m : UInt8), data.findIdx (· == 0) + 3 = data.length →
        data.getLast? = some m → m &&& flagBits = m →
        ∃ v, w.fromBytes data = .ok v ∧ v.bytes = data :=
  ⟨fromBytes_bytes, fun w _ _ => bytes_fromBytes w⟩

/-- The round trip on the label "1" with P2P signature extensions, and on the record
`"1" 0x00 0x70 0x03`. -/
theorem version_bytes_roundTrip_on_label_one :
    (0 ∉ ([0x31] : Bytes) ∧
      zero.fromBytes { zero with value := [0x31], p2pSigExtensions := true }.bytes =
        .ok { zero with value := [0x31], p2pSigExtensions := true }) ∧
      (([0x31, 0, 0x70, 3] : Bytes).findIdx (· == 0) + 3 = 4 ∧ (3 : UInt8) &&& flagBits = 3 ∧
        ∃ v, zero.fromBytes [0x31, 0, 0x70, 3] = .ok v ∧ v.bytes = [0x31, 0, 0x70, 3]) :=
  ⟨⟨by decide, version_bytes_roundTrip.1 _ _ (by decide)⟩,
    ⟨by decide, by decide, version_bytes_roundTrip.2 _ _ 3 (by decide) rfl (by decide)⟩⟩

end Version

namespace Simple

variable {A C N : Type} (s : Simple) (h : Heap A C N)

/-- `GetVersion`: the record read into a zero `Version`. -/
def getVersion : Except DaoError Version :=
  match h.get s.chain [KeyPrefix.sysVersion.toByte] with
  | none => .error .errKeyNotFound
  | some data => Version.zero.fromBytes data

/-- `PutVersion`: the version kept by the DAO and written to its store. -/
def putVersion (v : Version) : Simple × Heap A C N :=
  ({ s with version := v }, s.put h [KeyPrefix.sysVersion.toByte] v.bytes)

theorem getVersion_putVersion (v : Version) (hv : 0 ∉ v.value) :
    (s.putVersion h v).1.getVersion (s.putVersion h v).2 = .ok v := by
  have hchain : ({ s with version := v } : Simple).chain = s.chain := rfl
  simp only [putVersion, getVersion, hchain, get_put_self]
  exact Version.fromBytes_bytes _ v hv

end Simple

end NeoGo.Dao
