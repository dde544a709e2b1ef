import Sserialize.Storage.Bytes

/-!
# `OOMArray`

An array of elements in a file with a buffer behind its end that `flush` writes back. Offsets in the
file are counted in elements; sizes of buffers are given in bytes, of which an element has `sizeof`.
-/

namespace Sserialize

variable {TValue : Type}

/-! ## `FileHandler` on a file of elements -/

namespace FileHandler

/-- `pwrite`. The bytes between the end of the file and the offset become zero, which is the
default element. -/
def pwrite [Inhabited TValue] (file src : List TValue) (offset : Nat) : List TValue :=
  if src = [] then file
  else
    file.take offset ++ List.replicate (offset - file.length) default ++ src ++
      file.drop (offset + src.length)

/-- `pread`. Its loop does not end behind the end of the file. -/
def pread (file : List TValue) (count offset : Nat) : Except Fault (List TValue) :=
  if count = 0 ∨ offset + count ≤ file.length then .ok ((file.drop offset).take count)
  else .error .undefinedBehaviour

def ftruncate [Inhabited TValue] (file : List TValue) (newSize : Nat) : List TValue :=
  file.take newSize ++ List.replicate (newSize - file.length) default

end FileHandler

structure OOMArray (TValue : Type) where
  file : List TValue
  backBufferBegin : Nat
  backBufferSize : Nat
  backBuffer : List TValue
  readBufferSize : Nat
  deriving Repr, DecidableEq

namespace OOMArray

def ofFile (sizeof : Nat) (file : List TValue) : OOMArray TValue :=
  let backBufferSize := (1024 * 1024) / sizeof
  { file := file, backBufferBegin := file.length, backBufferSize := backBufferSize,
    backBuffer := [], readBufferSize := backBufferSize / 16 }

def size (a : OOMArray TValue) : Nat := a.backBufferBegin + a.backBuffer.length

def setReadBufferSize (sizeof s : Nat) (a : OOMArray TValue) : OOMArray TValue :=
  { a with readBufferSize := s / sizeof }

section

variable [Inhabited TValue]

def flush (a : OOMArray TValue) : OOMArray TValue :=
  if a.backBuffer.length ≠ 0 then
    { a with
      file := FileHandler.pwrite a.file a.backBuffer a.backBufferBegin,
      backBufferBegin := a.backBufferBegin + a.backBuffer.length,
      backBuffer := [] }
  else a

def setBackBufferSize (sizeof s : Nat) (a : OOMArray TValue) : OOMArray TValue :=
  let a := { a with backBufferSize := s / sizeof }
  if a.backBuffer.length ≠ 0 then a.flush else a

def swapData (sizeof : Nat) (a other : OOMArray TValue) : OOMArray TValue × OOMArray TValue :=
  let (a, other) :=
    if a.backBufferSize ≠ other.backBufferSize then
      (a.setBackBufferSize sizeof (other.backBufferSize * sizeof),
        other.setBackBufferSize sizeof (a.backBufferSize * sizeof))
    else (a, other)
  ({ a with
      file := other.file, backBufferSize := other.backBufferSize,
      backBufferBegin := other.backBufferBegin, backBuffer := other.backBuffer },
    { other with
      file := a.file, backBufferSize := a.backBufferSize,
      backBufferBegin := a.backBufferBegin, backBuffer := a.backBuffer })

def truncate (newSize : Nat) (a : OOMArray TValue) : OOMArray TValue :=
  let a := a.flush
  { a with file := FileHandler.ftruncate a.file newSize, backBufferBegin := newSize }

def clear (a : OOMArray TValue) : OOMArray TValue :=
  { a with
    backBufferBegin := 0, backBuffer := [], file := FileHandler.ftruncate a.file 0 }

def get (pos : Nat) (a : OOMArray TValue) : Except Fault TValue :=
  if pos < a.backBufferBegin then do
    let tmp ← FileHandler.pread a.file 1 pos
    return tmp.headD default
  else
    match a.backBuffer[pos - a.backBufferBegin]? with
    | some v => .ok v
    | none => .error .undefinedBehaviour

def set (pos : Nat) (v : TValue) (a : OOMArray TValue) : Except Fault (OOMArray TValue) :=
  if pos < a.backBufferBegin then .ok { a with file := FileHandler.pwrite a.file [v] pos }
  else if pos - a.backBufferBegin < a.backBuffer.length then
    .ok { a with backBuffer := a.backBuffer.set (pos - a.backBufferBegin) v }
  else .error .undefinedBehaviour

def pushBack (v : TValue) (a : OOMArray TValue) : OOMArray TValue :=
  let a := { a with backBuffer := a.backBuffer ++ [v] }
  if a.backBuffer.length ≥ a.backBufferSize then a.flush else a

def pushBackLoop (v : TValue) : Nat → OOMArray TValue → OOMArray TValue
  | 0, a => a
  | rounds + 1, a => pushBackLoop v rounds (a.pushBack v)

def resize (newSize : Nat) (v : TValue) (a : OOMArray TValue) : OOMArray TValue :=
  if newSize ≤ a.size then
    let a := a.flush
    { a with file := FileHandler.ftruncate a.file newSize, backBufferBegin := newSize }
  else a.pushBackLoop v (newSize - a.size)

/-- The loop of `replaceWithoutFlush` for any iterators, which copies to its buffer first. The
source is shorter in every round. -/
def replaceLoop (myBufferSize : Nat) : Nat → List TValue → Nat → List TValue → List TValue × Nat
  | 0, _, offset, file => (file, offset)
  | rounds + 1, src, offset, file =>
    if src = [] then (file, offset)
    else
      let buffer := src.take myBufferSize
      replaceLoop myBufferSize rounds (src.drop myBufferSize) (offset + buffer.length)
        (FileHandler.pwrite file buffer offset)

/-- `replaceWithoutFlush`. Elements that lie behind each other in memory are written at once. -/
def replaceWithoutFlush (sizeof : Nat) (contiguous : Bool) (position : Nat) (src : List TValue)
    (a : OOMArray TValue) : OOMArray TValue × Nat :=
  if contiguous then
    ({ a with file := FileHandler.pwrite a.file src position }, position + src.length)
  else
    let myBufferSize :=
      max 1 (min (min a.backBufferSize (1024 * 1024 * 1024 / sizeof)) src.length)
    let (file, offset) := replaceLoop myBufferSize src.length src position a.file
    ({ a with file := file }, offset)

/-- `replace`, with the position behind the last element. -/
def replace (sizeof : Nat) (contiguous : Bool) (position : Nat) (src : List TValue)
    (a : OOMArray TValue) : OOMArray TValue × Nat :=
  let count := src.length
  let a :=
    if position + count > a.backBufferBegin then
      let a := a.flush
      { a with backBufferBegin := max (position + count) a.backBufferBegin }
    else a
  a.replaceWithoutFlush sizeof contiguous position src

/-- `push_back` of a range. The free space of the buffer is a 64 bit difference. -/
def pushBackRange (sizeof : Nat) (contiguous : Bool) (src : List TValue) (a : OOMArray TValue) :
    OOMArray TValue :=
  if src.length > (2 ^ 64 + a.backBufferSize - a.backBuffer.length) % 2 ^ 64 then
    (a.replace sizeof contiguous a.size src).1
  else
    let a := { a with backBuffer := a.backBuffer ++ src }
    if a.backBuffer.length ≥ a.backBufferSize then a.flush else a

end

/-! ## Iterators -/

def fill (a : OOMArray TValue) (bufferSize p : Nat) : Except Fault (List TValue) :=
  if bufferSize = 0 ∨ p ≥ a.size then .ok []
  else if p < a.backBufferBegin then do
    let fileCopyCount := min bufferSize (a.backBufferBegin - p)
    let buffer ← FileHandler.pread a.file fileCopyCount p
    let bufferSize := bufferSize - fileCopyCount
    if bufferSize ≠ 0 then
      return buffer ++ a.backBuffer.take (min bufferSize a.backBuffer.length)
    else return buffer
  else
    let p := p - a.backBufferBegin
    .ok ((a.backBuffer.take (min (p + bufferSize) a.backBuffer.length)).drop p)

structure IteratorBuffer (TValue : Type) where
  bufferBegin : Nat
  bufferSize : Nat
  buffer : List TValue
  deriving Repr, DecidableEq

def IteratorBuffer.new (sizeof : Nat) (a : OOMArray TValue) (bb bs : Nat) :
    Except Fault (IteratorBuffer TValue) := do
  let bufferSize := bs / sizeof
  let buffer ← a.fill bufferSize bb
  return { bufferBegin := bb, bufferSize := bufferSize, buffer := buffer }

def IteratorBuffer.get (b : IteratorBuffer TValue) (p : Nat) : Except Fault TValue :=
  match b.buffer[p - b.bufferBegin]? with
  | some v => .ok v
  | none => .error .outOfRange

/-- `incTo`. A buffer that another iterator holds too is replaced by a new one of the same size. -/
def IteratorBuffer.incTo (a : OOMArray TValue) (b : IteratorBuffer TValue) (position : Nat) :
    Except Fault (IteratorBuffer TValue) :=
  if position - b.bufferBegin ≥ b.buffer.length then do
    let buffer ← a.fill b.bufferSize position
    return { b with bufferBegin := position, buffer := buffer }
  else .ok b

def IteratorBuffer.getRepositioned (sizeof : Nat) (a : OOMArray TValue) (b : IteratorBuffer TValue)
    (position : Nat) : Except Fault (IteratorBuffer TValue) :=
  if position < b.bufferBegin ∨ position - b.bufferBegin ≥ b.buffer.length then
    IteratorBuffer.new sizeof a position (b.bufferSize * sizeof)
  else .ok b

structure ConstIterator (TValue : Type) where
  b : IteratorBuffer TValue
  p : Nat
  deriving Repr, DecidableEq

def begin (sizeof : Nat) (a : OOMArray TValue) : Except Fault (ConstIterator TValue) := do
  let b ← IteratorBuffer.new sizeof a 0 (a.readBufferSize * sizeof)
  return { b := b, p := 0 }

def ConstIterator.add (sizeof : Nat) (a : OOMArray TValue) (it : ConstIterator TValue)
    (count : Nat) : Except Fault (ConstIterator TValue) := do
  let b ← it.b.getRepositioned sizeof a (it.p + count)
  return { b := b, p := it.p + count }

def ConstIterator.next (a : OOMArray TValue) (it : ConstIterator TValue) :
    Except Fault (ConstIterator TValue) := do
  let b ← it.b.incTo a (it.p + 1)
  return { b := b, p := it.p + 1 }

def ConstIterator.read (a : OOMArray TValue) :
    Nat → ConstIterator TValue → Except Fault (List TValue)
  | 0, _ => .ok []
  | rounds + 1, it => do
    let v ← it.b.get it.p
    let it ← it.next a
    let vs ← it.read a rounds
    return v :: vs

def readFrom (sizeof : Nat) (a : OOMArray TValue) (start : Nat) : Except Fault (List TValue) := do
  let it ← a.begin sizeof
  let it ← it.add sizeof a start
  it.read a (a.size - start)

end OOMArray

end Sserialize
