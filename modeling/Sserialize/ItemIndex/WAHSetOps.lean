import Sserialize.ItemIndex.ItemIndex
import Sserialize.ItemIndex.WAH

namespace Sserialize

/-- The complement of a `uint32_t`. -/
def not32 (n : Nat) : Nat := 0xFFFFFFFF ^^^ n

structure OutPutHandler where
  data : List Nat
  outPutWord : Nat
  idCount : Nat
  deriving Repr, DecidableEq

namespace OutPutHandler

open ItemIndexPrivateWAH

def new : OutPutHandler := { data := [], outPutWord := 0, idCount := 0 }

def push (h : OutPutHandler) : OutPutHandler :=
  let idCount :=
    match h.outPutWord &&& 0x3 with
    | 0x1 => h.idCount
    | 0x3 => u32 (h.idCount + u32 (31 * (h.outPutWord >>> 2)))
    | _ => u32 (h.idCount + popCount (h.outPutWord >>> 1))
  { h with data := h.data ++ [h.outPutWord], idCount := idCount }

def append (h : OutPutHandler) (nextWord : Nat) : OutPutHandler :=
  if nextWord &&& 0x1 ≠ 0 ∧ h.outPutWord &&& 0x1 ≠ 0 then
    if nextWord &&& 0x2 = h.outPutWord &&& 0x2 then
      { h with outPutWord := u32 (h.outPutWord + (nextWord &&& not32 0x3)) }
    else { h.push with outPutWord := nextWord }
  else
    let h := if h.outPutWord ≠ 0 then h.push else h
    { h with outPutWord := nextWord }

def flush (h : OutPutHandler) : OutPutHandler := if h.outPutWord ≠ 0 then h.push else h

/-- Merging the runs leaves the range of `uint32_t`. -/
def Overflows (h : OutPutHandler) (nextWord : Nat) : Prop :=
  (nextWord &&& 0x1 ≠ 0 ∧ h.outPutWord &&& 0x1 ≠ 0) ∧
    nextWord &&& 0x2 = h.outPutWord &&& 0x2 ∧ 2 ^ 32 ≤ h.outPutWord + (nextWord &&& not32 0x3)

def NeverOverflows : OutPutHandler → List Nat → Prop
  | _, [] => True
  | h, w :: ws => ¬ h.Overflows w ∧ NeverOverflows (h.append w) ws

end OutPutHandler

namespace ItemIndexPrivateWAH

def appendRuns (pushType myVal oVal : Nat) : Nat × Nat × Nat :=
  if oVal &&& not32 0x3 ≤ myVal &&& not32 0x3 then
    ((oVal &&& not32 0x3) ||| pushType, sub32 myVal (oVal &&& not32 0x3), 0)
  else ((myVal &&& not32 0x3) ||| pushType, 0, sub32 oVal (myVal &&& not32 0x3))

def types (myVal oVal : Nat) : Nat := ((myVal &&& 0x3) <<< 2) ||| (oVal &&& 0x3)

def intersectStep (myVal oVal : Nat) : Nat × Nat × Nat :=
  match types myVal oVal with
  | 0xF => appendRuns 0x3 myVal oVal
  | 0x5 | 0x7 | 0xD => appendRuns 0x1 myVal oVal
  | 0x4 | 0x6 => (0x5, sub32 myVal 0x4, 0)
  | 0xC | 0xE => (oVal, sub32 myVal 0x4, 0)
  | 0x9 | 0x1 => (0x5, 0, sub32 oVal 0x4)
  | 0x3 | 0xB => (myVal, 0, sub32 oVal 0x4)
  | _ =>
    let pushVal := myVal &&& oVal
    let pushVal := if pushVal ≠ 0 then pushVal else 0x5
    (pushVal, 0, 0)

def uniteStep (myVal oVal : Nat) : Nat × Nat × Nat :=
  match types myVal oVal with
  | 0xF | 0x5 | 0x7 | 0xD => appendRuns ((myVal &&& 0x3) ||| (oVal &&& 0x3)) myVal oVal
  | 0x4 | 0x6 => (oVal, sub32 myVal 0x4, 0)
  | 0xC | 0xE => (0x7, sub32 myVal 0x4, 0)
  | 0x9 | 0x1 => (myVal, 0, sub32 oVal 0x4)
  | 0x3 | 0xB => (0x7, 0, sub32 oVal 0x4)
  | _ =>
    let pushVal := myVal ||| oVal
    let pushVal := if not32 pushVal = 0x1 then 0x7 else pushVal
    (pushVal, 0, 0)

def differenceStep (myVal oVal : Nat) : Nat × Nat × Nat :=
  match types myVal oVal with
  | 0xF => appendRuns 0x1 myVal oVal
  | 0x5 | 0x7 | 0xD => appendRuns (myVal &&& 0x3) myVal oVal
  | 0x4 | 0x6 => (0x5, sub32 myVal 0x4, 0)
  | 0xC | 0xE => (not32 oVal &&& not32 0x1, sub32 myVal 0x4, 0)
  | 0x9 | 0x1 => (myVal, 0, sub32 oVal 0x4)
  | 0x3 | 0xB => (0x5, 0, sub32 oVal 0x4)
  | _ =>
    let pushVal := myVal &&& not32 oVal
    let pushVal := if pushVal ≠ 0 then pushVal else 0x5
    (pushVal, 0, 0)

def symmetricDifferenceStep (myVal oVal : Nat) : Nat × Nat × Nat :=
  match types myVal oVal with
  | 0xF | 0x5 | 0x7 | 0xD => appendRuns (((myVal ^^^ oVal) &&& 0x2) ||| 0x1) myVal oVal
  | 0x4 | 0x6 => (oVal, sub32 myVal 0x4, 0)
  | 0xC | 0xE => (not32 (oVal ||| 0x1), sub32 myVal 0x4, 0)
  | 0x9 | 0x1 => (myVal, 0, sub32 oVal 0x4)
  | 0x3 | 0xB => (not32 (myVal ||| 0x1), 0, sub32 oVal 0x4)
  | _ =>
    let pushVal := myVal ^^^ oVal
    let pushVal :=
      if pushVal = 0xFFFFFFFE then 0x7
      else if pushVal = 0 then 0x5
      else pushVal
    (pushVal, 0, 0)

/-- The next word when nothing is left of the current one; `none` when there is no next word. -/
def load (val : Nat) (it : List Nat) : Option (Nat × List Nat) :=
  if val >>> 2 = 0 then
    match it with
    | [] => none
    | w :: it => some (w, it)
  else some (val, it)

structure SetOpRest where
  myVal : Nat
  oVal : Nat
  myIt : List Nat
  oIt : List Nat
  deriving Repr, DecidableEq

/-- The words that the loop appends. Every round uses up a word, so there are not more than
`rounds`. -/
def setOpLoop (step : Nat → Nat → Nat × Nat × Nat) :
    Nat → Nat → Nat → List Nat → List Nat → List Nat × SetOpRest
  | 0, myVal, oVal, myIt, oIt => ([], { myVal, oVal, myIt, oIt })
  | rounds + 1, myVal, oVal, myIt, oIt =>
    match load myVal myIt with
    | none => ([], { myVal, oVal, myIt, oIt })
    | some (myVal, myIt) =>
      match load oVal oIt with
      | none => ([], { myVal, oVal, myIt, oIt })
      | some (oVal, oIt) =>
        let (nextWord, myVal, oVal) := step myVal oVal
        let (words, rest) := setOpLoop step rounds myVal oVal myIt oIt
        (nextWord :: words, rest)

def remainder (val : Nat) (it : List Nat) : List Nat :=
  if val >>> 2 ≠ 0 ∨ (val &&& 0x1 = 0 ∧ val >>> 1 ≠ 0) then val :: it else it

def setOpStart (step : Nat → Nat → Nat × Nat × Nat) (idx other : ItemIndexPrivateWAH) :
    List Nat × SetOpRest :=
  setOpLoop step (idx.words.length + other.words.length + 1) 0 0 idx.words other.words

def intersectWords (idx other : ItemIndexPrivateWAH) : List Nat :=
  (setOpStart intersectStep idx other).1

def uniteWords (idx other : ItemIndexPrivateWAH) : List Nat :=
  let (words, rest) := setOpStart uniteStep idx other
  words ++ remainder rest.myVal rest.myIt ++ remainder rest.oVal rest.oIt

def differenceWords (idx other : ItemIndexPrivateWAH) : List Nat :=
  let (words, rest) := setOpStart differenceStep idx other
  words ++ remainder rest.myVal rest.myIt

def symmetricDifferenceWords (idx other : ItemIndexPrivateWAH) : List Nat :=
  let (words, rest) := setOpStart symmetricDifferenceStep idx other
  words ++ remainder rest.myVal rest.myIt ++ remainder rest.oVal rest.oIt

def setOpWords : SetOp → ItemIndexPrivateWAH → ItemIndexPrivateWAH → List Nat
  | .intersect => intersectWords
  | .unite => uniteWords
  | .difference => differenceWords
  | .symmetricDifference => symmetricDifferenceWords

def setOpData (op : SetOp) (idx other : ItemIndexPrivateWAH) : Bytes :=
  let oHandler := ((setOpWords op idx other).foldl OutPutHandler.append .new).flush
  leBytes 4 (u32 (4 * oHandler.data.length)) ++ leBytes 4 oHandler.idCount ++
    wordBytes oHandler.data

def setOp (op : SetOp) (idx other : ItemIndexPrivateWAH) : Except Fault ItemIndexPrivateWAH :=
  ofData (setOpData op idx other)

end ItemIndexPrivateWAH

end Sserialize
