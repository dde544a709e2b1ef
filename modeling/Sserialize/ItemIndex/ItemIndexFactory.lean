import Sserialize.Storage.Bytes

namespace Sserialize

namespace UByteArrayAdapter

/-- `growStorage` of an adapter that begins at `offSet`; it does nothing if the size wraps
around. -/
def growStorage (offSet : Nat) (data : Bytes) (byte : Nat) : Bytes :=
  if offSet + data.length + byte < 2 ^ 64 then data ++ List.replicate byte 0 else data

def putData (data : Bytes) (pos : Nat) (src : Bytes) : Except Fault Bytes :=
  if src = [] then .ok data
  else if data.length < (pos + src.length) % 2 ^ 64 then .error .outOfBounds
  else if pos + src.length ≤ data.length then
    .ok (data.take pos ++ src ++ data.drop (pos + src.length))
  else .error .undefinedBehaviour

def part (data : Bytes) (addOffset smallerLen : Nat) : Bytes :=
  (data.drop (min addOffset data.length)).take smallerLen

end UByteArrayAdapter

namespace MMVector

variable {TValue : Type}

def «at» (v : List TValue) (pos : Nat) : Except Fault TValue :=
  match v[pos]? with
  | some x => .ok x
  | none => .error .outOfRange

def assign (v : List TValue) (pos : Nat) (x : TValue) : Except Fault (List TValue) :=
  if pos < v.length then .ok (v.set pos x) else .error .outOfRange

def resize (v : List TValue) (size : Nat) (x : TValue) : List TValue :=
  v.take size ++ List.replicate (size - v.length) x

end MMVector

structure ItemIndexCodec where
  /-- `ItemIndexFactory::create` in an empty buffer: the bytes and the type, 0 is `T_NULL`. -/
  create : List Nat → Nat → Except Fault (Bytes × Nat)
  /-- The ids of `ItemIndex(data, type)`. -/
  read : Bytes → Nat → Except Fault (List Nat)

structure ItemIndexFactory (DataHashKey : Type) where
  indexStore : Bytes
  offSet : Nat
  dataOffset : Nat
  idCounter : Nat
  hash : DataHashKey → Option Nat
  idToOffsets : List Nat
  idxSizes : List Nat
  idxTypes : List Nat
  hitCount : Nat
  checkIndex : Bool
  useDeduplication : Bool
  type : Nat
  growSize : Nat

namespace ItemIndexFactory

variable {DataHashKey : Type}

def auxDataGrow : Nat := 4096

def invalidId : Nat := 0xFFFFFFFF

def isMultiple (type : Nat) : Bool := type &&& 0x800000 ≠ 0

def new (indexStore : Bytes) (offSet type growSize : Nat) (checkIndex useDeduplication : Bool) :
    ItemIndexFactory DataHashKey where
  indexStore := indexStore
  offSet := offSet
  dataOffset := 0
  idCounter := 0
  hash := fun _ => none
  idToOffsets := []
  idxSizes := []
  idxTypes := []
  hitCount := 0
  checkIndex := checkIndex
  useDeduplication := useDeduplication
  type := type
  growSize := growSize

def assignType (f : ItemIndexFactory DataHashKey) (types : List Nat) (indexId type : Nat) :
    Except Fault (List Nat) :=
  if isMultiple f.type then MMVector.assign types indexId (type % 2 ^ 8) else .ok types

def adjustAux (f : ItemIndexFactory DataHashKey) (indexId dataOffset idxSize type : Nat) :
    Except Fault (ItemIndexFactory DataHashKey) := do
  let grow := f.idToOffsets.length ≤ indexId
  let size := indexId + auxDataGrow
  let offsets := if grow then MMVector.resize f.idToOffsets size 0 else f.idToOffsets
  let sizes := if grow then MMVector.resize f.idxSizes size 0 else f.idxSizes
  let types :=
    if grow ∧ isMultiple f.type then MMVector.resize f.idxTypes size 0 else f.idxTypes
  let idToOffsets ← MMVector.assign offsets indexId dataOffset
  let idxSizes ← MMVector.assign sizes indexId idxSize
  let idxTypes ← f.assignType types indexId type
  return { f with idToOffsets, idxSizes, idxTypes }

/-- The part of `addIndex` that grows the index store and pushes the data. -/
def pushData (f : ItemIndexFactory DataHashKey) (dataOffset : Nat) (idx : Bytes) :
    Except Fault (ItemIndexFactory DataHashKey) := do
  let size := (dataOffset + idx.length) % 2 ^ 64
  let store :=
    if size ≥ f.indexStore.length then
      UByteArrayAdapter.growStorage f.offSet f.indexStore
        (max (size - f.indexStore.length) f.growSize)
    else f.indexStore
  let indexStore ← UByteArrayAdapter.putData store dataOffset idx
  return { f with indexStore }

variable [DecidableEq DataHashKey]

def addData (hashFunc : Bytes → DataHashKey) (f : ItemIndexFactory DataHashKey) (idx : Bytes)
    (idxSize type : Nat) : Except Fault (Nat × ItemIndexFactory DataHashKey) :=
  let known := if f.useDeduplication then f.hash (hashFunc idx) else none
  match known with
  | some id => .ok (id, { f with hitCount := f.hitCount + 1 })
  | none =>
    if f.idCounter ≥ invalidId then .error .typeOverflow
    else do
      let indexId := f.idCounter
      let dataOffset := f.dataOffset
      let f := { f with
        hash :=
          if f.useDeduplication then Function.update f.hash (hashFunc idx) (some indexId)
          else f.hash
        idCounter := indexId + 1
        dataOffset := (dataOffset + idx.length) % 2 ^ 64 }
      let f ← f.pushData dataOffset idx
      let f ← f.adjustAux indexId dataOffset idxSize type
      return (indexId, f)

def addIndex (codec : ItemIndexCodec) (hashFunc : Bytes → DataHashKey)
    (f : ItemIndexFactory DataHashKey) (idx : List Nat) :
    Except Fault (Nat × ItemIndexFactory DataHashKey) := do
  let (s, type) ← codec.create idx f.type
  if type ≠ 0 then
    if f.checkIndex then
      let sidx ← codec.read s type
      if idx ≠ sidx then throw .creation
    let idxSize ← narrowCheck32 idx.length
    f.addData hashFunc s idxSize type
  else throw .creation

omit [DecidableEq DataHashKey] in
def dataEndById (f : ItemIndexFactory DataHashKey) (id : Nat) : Except Fault Nat :=
  if u32 (id + 1) < f.idToOffsets.length then MMVector.at f.idToOffsets (u32 (id + 1))
  else .ok f.idToOffsets.length

def dataSizeById (f : ItemIndexFactory DataHashKey) (id : Nat) : Except Fault Nat := do
  let next ← f.dataEndById id
  let offset ← MMVector.at f.idToOffsets id
  return (next + 2 ^ 64 - offset) % 2 ^ 64

def indexDataById (f : ItemIndexFactory DataHashKey) (id : Nat) : Except Fault Bytes := do
  let offset ← MMVector.at f.idToOffsets id
  let size ← f.dataSizeById id
  return UByteArrayAdapter.part f.indexStore offset size

def typeAt (f : ItemIndexFactory DataHashKey) (pos : Nat) : Except Fault Nat :=
  if isMultiple f.type then MMVector.at f.idxTypes pos else .ok f.type

def indexById (codec : ItemIndexCodec) (f : ItemIndexFactory DataHashKey) (id : Nat) :
    Except Fault (List Nat) := do
  let data ← f.indexDataById id
  let type ← f.typeAt id
  codec.read data type

def rehash (hashFunc : Bytes → DataHashKey) (f : ItemIndexFactory DataHashKey)
    (hash : DataHashKey → Option Nat) (id : Nat) : Except Fault (DataHashKey → Option Nat) := do
  let data ← f.indexDataById id
  return Function.update hash (hashFunc data) (some id)

def recalculateDeduplicationData (hashFunc : Bytes → DataHashKey)
    (f : ItemIndexFactory DataHashKey) : Except Fault (ItemIndexFactory DataHashKey) := do
  let hash ← (List.range (u32 f.idCounter)).foldlM (rehash hashFunc f) fun _ => none
  return { f with hash }

end ItemIndexFactory

end Sserialize
