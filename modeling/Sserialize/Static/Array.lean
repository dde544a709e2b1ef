import Sserialize.Containers.SortedOffsetIndexCreate

/-!
# `Static::Array` and `ArrayCreator`

The bytes of the values behind each other, in front of them the number of these bytes, which is
patched in by `flush`. Behind them an index of the offsets, or nothing but the length of a value
where all values have the same length.
-/

namespace Sserialize

/-- What the templates use of the type of the values: `SerializationInfo`, `is_integral`,
`SerializationSupport`, the streaming serializer and the deserializer. `get` is given the bytes
from the position on, `deserialize` those of the value. -/
structure ValueType (α : Type) where
  fixedLength : Option Nat
  minLength : Nat
  isIntegral : Bool
  serializationSupport : Bool
  serialize : α → Bytes
  deserialize : Bytes → Except Fault α
  get : Bytes → Except Fault α

/-- The destination: the bytes in front of the put pointer and those behind it. -/
structure PutAdapter where
  written : Bytes
  behind : Bytes
  deriving Repr, DecidableEq

namespace PutAdapter

def tellPutPtr (d : PutAdapter) : Nat := d.written.length

/-- `putData`, over the bytes behind the put pointer. -/
def put (d : PutAdapter) (bs : Bytes) : PutAdapter := ⟨d.written ++ bs, d.behind.drop bs.length⟩

/-- `putOffset(pos, value)` in front of the put pointer. -/
def putOffset (d : PutAdapter) (pos value : Nat) : Except Fault PutAdapter := do
  let written ← putUint 5 d.written pos value
  return { d with written := written }

end PutAdapter

/-! ## The creator -/

structure ArrayCreator where
  dest : PutAdapter
  size : Nat
  offsets : List Nat
  dataLenPtr : Nat
  dataBegin : Nat
  deriving Repr, DecidableEq

namespace ArrayCreator

def new (destination : PutAdapter) : ArrayCreator :=
  let dest := destination.put [4]
  let dataLenPtr := dest.tellPutPtr
  let dest := dest.put (leBytes 5 0)
  { dest := dest, size := 0, offsets := [], dataLenPtr := dataLenPtr,
    dataBegin := dest.tellPutPtr }

variable {α : Type} (ty : ValueType α)

def beginRawPut (c : ArrayCreator) : ArrayCreator :=
  { c with
    offsets := if ty.fixedLength.isNone then c.offsets ++ [c.dest.tellPutPtr - c.dataBegin]
      else c.offsets
    size := c.size + 1 }

def putRaw (c : ArrayCreator) (bs : Bytes) : ArrayCreator :=
  let c := c.beginRawPut ty
  { c with dest := c.dest.put bs }

def put (c : ArrayCreator) (value : α) : ArrayCreator := c.putRaw ty (ty.serialize value)

variable (estimate : List Nat → RegLine)

/-- What `flush` puts behind the data. -/
def putIndex (c : ArrayCreator) : Except Fault ArrayCreator :=
  match ty.fixedLength with
  | some length =>
    if !ty.isIntegral then .ok { c with dest := c.dest.put (pVu32 length) } else .ok c
  | none => do
    let (bytes, moved) ← SortedOffsetIndex.create (estimate c.offsets) c.offsets c.dest.behind
    return { c with dest := ⟨c.dest.written ++ bytes.take moved, bytes.drop moved⟩ }

/-- `flush`. The line of the offset index is the one that is estimated for the offsets. -/
def flush (c : ArrayCreator) : Except Fault ArrayCreator := do
  let dest ← c.dest.putOffset c.dataLenPtr (c.dest.tellPutPtr - c.dataBegin)
  putIndex ty estimate { c with dest := dest }

def getFlushedData (c : ArrayCreator) : Bytes := c.dest.written.drop (c.dataBegin - 1 - 5)

/-- What is done with a creator. -/
inductive Op (α : Type) where
  | put (value : α)
  | rawPut (bs : Bytes)
  | flush

def step (c : ArrayCreator) : Op α → Except Fault ArrayCreator
  | .put value => .ok (c.put ty value)
  | .rawPut bs => .ok (c.putRaw ty bs)
  | .flush => c.flush ty estimate

def run (c : ArrayCreator) (ops : List (Op α)) : Except Fault ArrayCreator :=
  ops.foldlM (step ty estimate) c

end ArrayCreator

/-! ## The array -/

inductive ArrayOffsetIndex where
  | fixed (length size : Nat)
  | sorted (index : SortedOffsetIndex)
  deriving Repr, DecidableEq

/-- `narrow_check<uint32_t>`. -/
def narrowCheckU32 (n : Nat) : Except Fault Nat :=
  if n < 2 ^ 32 then .ok n else .error .typeOverflow

namespace ArrayOffsetIndex

variable {α : Type} (ty : ValueType α)

def load (dataSize : Nat) (d : Bytes) : Except Fault ArrayOffsetIndex :=
  match ty.fixedLength with
  | some length =>
    let size := dataSize / length
    if size * length ≠ dataSize then .error .corruptData
    else if !ty.isIntegral then do
      let (l, _) ← getVlPackedUint32At d 0
      if l ≠ length then .error .corruptData else return .fixed length size
    else .ok (.fixed length size)
  | none => do
    let index ← SortedOffsetIndex.init d
    return .sorted index

def «at» : ArrayOffsetIndex → Nat → Except Fault Nat
  | fixed length _, pos => .ok (length * pos)
  | sorted index, pos => do
    let pos ← narrowCheckU32 pos
    index.at pos

def size : ArrayOffsetIndex → Nat
  | fixed _ size => size
  | sorted index => index.size

def getSizeInBytes : ArrayOffsetIndex → Nat
  | fixed length _ => if ty.isIntegral then 0 else psizeVu32 length
  | sorted index => index.getSizeInBytes

end ArrayOffsetIndex

structure StaticArray where
  data : Bytes
  index : ArrayOffsetIndex
  deriving Repr, DecidableEq

namespace StaticArray

variable {α : Type} (ty : ValueType α)

def size (a : StaticArray) : Nat := a.index.size

def getSizeInBytes (a : StaticArray) : Nat := 1 + 5 + a.index.getSizeInBytes ty + a.data.length

def load (data : Bytes) : Except Fault StaticArray := do
  let dataLen ← getUint 5 data 1
  let version ← byteAt data 0
  if version ≠ 4 then .error .versionMissMatch
  else do
    let m_data := (data.drop (1 + 5)).take dataLen
    let index ← ArrayOffsetIndex.load ty m_data.length (data.drop (1 + 5 + m_data.length))
    if u64 (index.size * ty.minLength : Nat) > m_data.length then .error .corruptData
    else return { data := m_data, index := index }

def consume (data : Bytes) : Except Fault (StaticArray × Bytes) := do
  let a ← load ty data
  return (a, data.drop (a.getSizeInBytes ty))

def range (a : StaticArray) (pos : Nat) : Except Fault (Nat × Nat) := do
  let begin ← a.index.at pos
  if pos + 1 = a.size then return (begin, a.data.length - begin)
  else do
    let next ← a.index.at (pos + 1)
    return (begin, next - begin)

def dataAt (a : StaticArray) (pos : Nat) : Except Fault Bytes :=
  if pos ≥ a.size then .ok []
  else do
    let (begin, len) ← a.range pos
    return (a.data.drop begin).take len

def «at» (a : StaticArray) (pos : Nat) : Except Fault α :=
  if pos ≥ a.size then .error .outOfBounds
  else if ty.fixedLength.isSome && ty.serializationSupport then do
    let begin ← a.index.at pos
    ty.get (a.data.drop begin)
  else do
    let d ← a.dataAt pos
    ty.deserialize d

end StaticArray

end Sserialize
