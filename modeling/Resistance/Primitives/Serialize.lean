import Resistance.Lib.Codec

/-! The wire primitives of `serialize.h`: fixed-width integers, compact sizes, vectors and
fixed-size arrays, with the stream that follows them left untouched.
-/

namespace Resistance.Primitives

open Lib.Codec UInt64

abbrev Bytes := List UInt8

-- What `CBaseDataStream::read` throws when too few bytes are left.
def endOfData : String := "CBaseDataStream::read(): end of data"

/-- `MAX_SIZE`, the largest size that `ReadCompactSize` accepts. -/
def maxSize : UInt64 := 0x02000000

def serWritedata8 (obj : UInt8) : Bytes := [obj]

def serReaddata8 : Reader String UInt8 := Reader.byte endOfData

def serWritedata16 (obj : UInt16) : Bytes := leBytes 2 obj.toNat

def serReaddata16 : Reader String UInt16 := do
  let obj ← Reader.le endOfData 2
  pure (UInt16.ofNat obj)

def serWritedata32 (obj : UInt32) : Bytes := leBytes 4 obj.toNat

def serReaddata32 : Reader String UInt32 := do
  let obj ← Reader.le endOfData 4
  pure (UInt32.ofNat obj)

def serWritedata64 (obj : UInt64) : Bytes := leBytes 8 obj.toNat

def serReaddata64 : Reader String UInt64 := do
  let obj ← Reader.le endOfData 8
  pure (UInt64.ofNat obj)

-- `Serialize` and `Unserialize` of an `int64_t` go through `uint64_t`.
def serializeInt64 (a : Int64) : Bytes := serWritedata64 a.toUInt64

def unserializeInt64 : Reader String Int64 := do
  let a ← serReaddata64
  pure a.toInt64

theorem reads8 (obj : UInt8) : Reads serReaddata8 (serWritedata8 obj) obj :=
  Reads.byte endOfData obj

theorem reads16 (obj : UInt16) : Reads serReaddata16 (serWritedata16 obj) obj := by
  have read : Reads serReaddata16 (serWritedata16 obj) (UInt16.ofNat obj.toNat) :=
    (Reads.le endOfData obj.toNat_lt).map
  rwa [UInt16.ofNat_toNat] at read

theorem reads32 (obj : UInt32) : Reads serReaddata32 (serWritedata32 obj) obj := by
  have read : Reads serReaddata32 (serWritedata32 obj) (UInt32.ofNat obj.toNat) :=
    (Reads.le endOfData obj.toNat_lt).map
  rwa [UInt32.ofNat_toNat] at read

theorem reads64 (obj : UInt64) : Reads serReaddata64 (serWritedata64 obj) obj := by
  have read : Reads serReaddata64 (serWritedata64 obj) (ofNat obj.toNat) :=
    (Reads.le endOfData obj.toNat_lt).map
  rwa [UInt64.ofNat_toNat] at read

theorem readsInt64 (a : Int64) : Reads unserializeInt64 (serializeInt64 a) a := by
  have read : Reads unserializeInt64 (serializeInt64 a) a.toUInt64.toInt64 :=
    (reads64 a.toUInt64).map
  rwa [Int64.toInt64_toUInt64] at read

def writeCompactSize (nSize : UInt64) : Bytes :=
  if nSize < 253 then serWritedata8 nSize.toUInt8
  else if nSize ≤ 0xFFFF then serWritedata8 253 ++ serWritedata16 nSize.toUInt16
  else if nSize ≤ 0xFFFFFFFF then serWritedata8 254 ++ serWritedata32 nSize.toUInt32
  else serWritedata8 255 ++ serWritedata64 nSize

-- The four forms, before the check against `MAX_SIZE`.
def readCompactSizeForm (chSize : UInt8) : Reader String UInt64 :=
  if chSize < 253 then pure chSize.toUInt64
  else if chSize = 253 then do
    let nSizeRet ← serReaddata16
    if nSizeRet < 253 then .fail "non-canonical ReadCompactSize()"
    else pure nSizeRet.toUInt64
  else if chSize = 254 then do
    let nSizeRet ← serReaddata32
    if nSizeRet < 0x10000 then .fail "non-canonical ReadCompactSize()"
    else pure nSizeRet.toUInt64
  else do
    let nSizeRet ← serReaddata64
    if nSizeRet < 0x100000000 then .fail "non-canonical ReadCompactSize()"
    else pure nSizeRet

def readCompactSize : Reader String UInt64 := do
  let chSize ← serReaddata8
  let nSizeRet ← readCompactSizeForm chSize
  if nSizeRet > maxSize then .fail "ReadCompactSize(): size too large"
  else pure nSizeRet

/-- Every size is read back from its own form, before the check against `MAX_SIZE`. -/
theorem reads_compactSizeForm (nSize : UInt64)
    : ∃ chSize payload, writeCompactSize nSize = serWritedata8 chSize ++ payload
      ∧ Reads (readCompactSizeForm chSize) payload nSize := by
  unfold writeCompactSize
  split
  next small =>
    rw [lt_iff_toNat_lt] at small
    have byte : nSize.toUInt8.toNat = nSize.toNat := by
      exact Nat.mod_eq_of_lt (by simp at small; omega)
    have form : nSize.toUInt8 < 253 := by
      rw [UInt8.lt_iff_toNat_lt, byte]
      exact small
    have same : nSize.toUInt8.toUInt64 = nSize := by
      rw [← UInt64.toNat_inj, UInt8.toNat_toUInt64, byte]
    refine ⟨nSize.toUInt8, [], by simp, ?_⟩
    rw [readCompactSizeForm, if_pos form]
    have read := Reads.pure (ε := String) nSize.toUInt8.toUInt64
    rwa [same] at read ⊢
  next large =>
    split
    next small =>
      rw [le_iff_toNat_le] at small
      have word : nSize.toUInt16.toNat = nSize.toNat := by
        exact Nat.mod_eq_of_lt (by simp at small; omega)
      have canonical : ¬ nSize.toUInt16 < 253 := by
        rw [UInt16.lt_iff_toNat_lt, word]
        exact large
      have same : nSize.toUInt16.toUInt64 = nSize := by
        rw [← UInt64.toNat_inj, UInt16.toNat_toUInt64, word]
      refine ⟨253, _, rfl, ?_⟩
      have read : Reads (readCompactSizeForm 253) (serWritedata16 nSize.toUInt16)
          nSize.toUInt16.toUInt64 :=
        (reads16 nSize.toUInt16).guarded canonical
      rwa [same] at read
    next large =>
      rw [le_iff_toNat_le] at large
      split
      next small =>
        rw [le_iff_toNat_le] at small
        have word : nSize.toUInt32.toNat = nSize.toNat := by
          exact Nat.mod_eq_of_lt (by simp at small; omega)
        have canonical : ¬ nSize.toUInt32 < 0x10000 := by
          rw [UInt32.lt_iff_toNat_lt, word]
          simp at large ⊢
          omega
        have same : nSize.toUInt32.toUInt64 = nSize := by
          rw [← UInt64.toNat_inj, UInt32.toNat_toUInt64, word]
        refine ⟨254, _, rfl, ?_⟩
        have read : Reads (readCompactSizeForm 254) (serWritedata32 nSize.toUInt32)
            nSize.toUInt32.toUInt64 :=
          (reads32 nSize.toUInt32).guarded canonical
        rwa [same] at read
      next large =>
        have canonical : ¬ nSize < 0x100000000 := by
          rw [lt_iff_toNat_lt]
          rw [le_iff_toNat_le] at large
          simp at large ⊢
          omega
        exact ⟨255, _, rfl, (reads64 nSize).guarded canonical⟩

/-- A size within `MAX_SIZE` is read back. -/
theorem reads_compactSize {nSize} (bound : nSize ≤ maxSize)
    : Reads readCompactSize (writeCompactSize nSize) nSize := by
  obtain ⟨chSize, payload, written, form⟩ := reads_compactSizeForm nSize
  rw [written]
  refine (reads8 chSize).bind (form.guarded ?_)
  exact UInt64.not_lt.mpr bound

/-- A larger size can be written but not read. -/
theorem throws_compactSize {nSize} (large : maxSize < nSize)
    : Throws readCompactSize (writeCompactSize nSize)
        "ReadCompactSize(): size too large" := by
  obtain ⟨chSize, payload, written, form⟩ := reads_compactSizeForm nSize
  rw [written]
  refine (reads8 chSize).bindThrows fun rest => ?_
  simp only [Bind.bind, form rest, if_pos large]
  rfl

theorem returns_compactSize
    : Returns readCompactSize (fun nSize => nSize ≤ maxSize) := by
  refine Returns.skip fun chSize => ?_
  intro stream nSize rest run
  obtain ⟨size, bound, rfl⟩ := Returns.guarded _ _ _ run
  exact UInt64.not_lt.mp bound

variable {α : Type}

/-- `Serialize` of a `std::vector`, given that of its elements. -/
def serializeVector (write : α → Bytes) (v : List α) : Bytes :=
  writeCompactSize (UInt64.ofNat v.length) ++ v.flatMap write

/-- `Unserialize` of a `std::vector`; the source reads the elements in batches to bound the
memory that a bogus size can claim. -/
def unserializeVector (reader : Reader String α) : Reader String (List α) := do
  let nSize ← readCompactSize
  let v ← reader.array nSize.toNat
  pure v.toList

/-- `Serialize` of a `std::array`: no size is written. -/
def serializeArray {n : Nat} (write : α → Bytes) (item : List.Vector α n) : Bytes :=
  item.toList.flatMap write

def unserializeArray (reader : Reader String α) (n : Nat)
    : Reader String (List.Vector α n) :=
  reader.array n

variable {reader : Reader String α} {v : List α}

theorem reads_vector {write} (bound : v.length ≤ maxSize.toNat)
    (each : ∀ a ∈ v, Reads reader (write a) a)
    : Reads (unserializeVector reader) (serializeVector write v) v := by
  have fits : v.length < 2 ^ 64 := bound.trans_lt (by decide)
  have size : (ofNat v.length).toNat = v.length := toNat_ofNat_of_lt' fits
  have header : ofNat v.length ≤ maxSize := by
    rwa [le_iff_toNat_le, size]
  refine (reads_compactSize header).bind ?_
  rw [size]
  have items : Reads (reader.array v.length) (v.flatMap write) ⟨v, rfl⟩ := Reads.array ⟨v, rfl⟩ each
  exact items.map

/-- A vector whose first element cannot be read back cannot be either. -/
theorem throws_vector_head {write a e} (bound : (a :: v).length ≤ maxSize.toNat)
    (thrown : Throws reader (write a) e)
    : Throws (unserializeVector reader) (serializeVector write (a :: v)) e := by
  have fits : (a :: v).length < 2 ^ 64 := bound.trans_lt (by decide)
  have size : (ofNat (a :: v).length).toNat = v.length + 1 := toNat_ofNat_of_lt' fits
  have header : ofNat (a :: v).length ≤ maxSize := by
    rw [le_iff_toNat_le, size]
    exact bound
  refine (reads_compactSize header).bindThrows ?_
  rw [size, List.flatMap_cons, Reader.array]
  intro rest
  simp only [bind]
  rw [List.append_assoc, thrown]

theorem returns_vector {P} (each : Returns reader P)
    : Returns (unserializeVector reader)
        (fun v => v.length ≤ maxSize.toNat ∧ ∀ a ∈ v, P a) := by
  refine returns_compactSize.bind (fun nSize bound => ?_)
  refine (each.array nSize.toNat).bind (fun v holds => Returns.pure ⟨?_, holds⟩)
  rw [List.Vector.toList_length]
  exact le_iff_toNat_le.mp bound

theorem reads_array {write n} (item : List.Vector α n) (each : ∀ a, Reads reader (write a) a)
    : Reads (unserializeArray reader n) (serializeArray write item) item :=
  Reads.array item (fun a _ => each a)

end Resistance.Primitives
