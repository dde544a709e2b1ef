import Sserialize.Search.OpTreeParser

/-!
# `SetOpsOpTreeParser`

The tokenizer of query strings with set operators. An iterator is the rest of the string. `0x5c`
is the backslash. The string hinter decides whether a string with spaces goes on, so
`readString` may have to go back to the last string that was valid.
-/

namespace Sserialize

open InfixGrammar

namespace SetOpsOpTreeParser

open OpTreeParser

inductive OpType where
  | unite
  | intersect
  | diff
  | symDiff
  deriving Repr, DecidableEq

inductive TokenType where
  | string
  | operator
  | braceOpen
  | braceClose
  | endOfInput
  | ntSa
  | invalid
  deriving Repr, DecidableEq

/-- A token without an operator has the value `0xFF` for it. -/
structure Token where
  tokenString : Bytes
  type : TokenType
  op : Option OpType
  deriving Repr, DecidableEq

inductive Node where
  | leaf (q : Bytes)
  | op (opType : Option OpType) (left right : Node)
  deriving Repr, DecidableEq

def opMap (c : UInt8) : Option OpType :=
  if c = octet '+' then some .unite
  else if c = octet '-' then some .diff
  else if c = octet '/' then some .intersect
  else if c = octet '^' then some .symDiff
  else none

/-! ## `sanitize` -/

/-- The loop of `sanitize`, which counts braces in a `uint32_t`. Missing braces are appended. -/
def sanitizeLoop (isOp : UInt8 → Bool) : Nat → Bool → Bytes → Bytes
  | braceCount, _, [] => List.replicate braceCount (octet ')')
  | braceCount, _, [0x5c] => List.replicate braceCount (octet ')')
  | braceCount, beforeWasOp, 0x5c :: c :: str =>
    0x5c :: c :: sanitizeLoop isOp braceCount beforeWasOp str
  | braceCount, beforeWasOp, c :: str =>
    if c = octet ')' then
      if braceCount = 0 then sanitizeLoop isOp braceCount beforeWasOp str
      else c :: sanitizeLoop isOp (braceCount - 1) beforeWasOp str
    else if isOp c then
      if beforeWasOp then sanitizeLoop isOp braceCount beforeWasOp str
      else c :: sanitizeLoop isOp braceCount true str
    else if c = octet '(' then c :: sanitizeLoop isOp (u32 (braceCount + 1)) beforeWasOp str
    else c :: sanitizeLoop isOp braceCount false str

def sanitize (query : Bytes) : Bytes :=
  sanitizeLoop (fun c => (opMap c).isSome) 0 false query

/-! ## `readString` -/

/-- The conversion of a size to `int`. -/
def toInt (size : Nat) : Int :=
  if size % 2 ^ 32 < 2 ^ 31 then (size % 2 ^ 32 : Nat) else (size % 2 ^ 32 : Nat) - 2 ^ 32

def resize (str : Bytes) (size : Int) : Except Fault (Bytes) :=
  if size < 0 then .error .lengthError
  else .ok (str.take size.toNat ++ List.replicate (size.toNat - str.length) 0)

structure ReadState where
  tokenString : Bytes
  strIt : Bytes
  lastValidStrSize : Int
  lastValidStrIt : Bytes
  deriving Repr, DecidableEq

def readQuoted : Bytes → Bytes → Bytes × Bytes
  | tokenString, [] => (tokenString, [])
  | tokenString, [0x5c] => (tokenString, [])
  | tokenString, 0x5c :: c :: it => readQuoted (tokenString ++ [c]) it
  | tokenString, c :: it =>
    if c = octet '"' then (tokenString ++ [c], it) else readQuoted (tokenString ++ [c]) it

def readPlain (strHinter : Bytes → Bool) :
    Bytes → Bytes → Int → Bytes → ReadState
  | tokenString, [], size, lastIt => ⟨tokenString, [], size, lastIt⟩
  | tokenString, [0x5c], size, lastIt => ⟨tokenString, [], size, lastIt⟩
  | tokenString, 0x5c :: c :: it, size, lastIt =>
    readPlain strHinter (tokenString ++ [c]) it size lastIt
  | tokenString, c :: it, size, lastIt =>
    if c = octet ' ' then
      if strHinter (tokenString ++ [c]) then
        if (tokenString ++ [c]).length > 1 ∧ tokenString.getLast? ≠ some (octet ' ') then
          readPlain strHinter (tokenString ++ [c]) it (toInt (tokenString ++ [c]).length - 1)
            (c :: it)
        else readPlain strHinter (tokenString ++ [c]) it size lastIt
      else ⟨tokenString, c :: it, size, lastIt⟩
    else if c = octet '(' ∨ c = octet ')' then
      -- a string with spaces may go on up to here
      if size ≥ 0 ∧ tokenString ≠ [] ∧ tokenString.getLast? ≠ some (octet ' ') ∧
          strHinter tokenString then
        ⟨tokenString, c :: it, toInt tokenString.length, c :: it⟩
      else ⟨tokenString, c :: it, size, lastIt⟩
    else if (opMap c).isSome then
      if tokenString ≠ [] ∧ tokenString.getLast? = some (octet ' ') then
        ⟨tokenString, c :: it, size, lastIt⟩
      else readPlain strHinter (tokenString ++ [c]) it size lastIt
    else readPlain strHinter (tokenString ++ [c]) it size lastIt

def finish (s : ReadState) : Except Fault (Token × Bytes) := do
  let tokenString ← resize s.tokenString s.lastValidStrSize
  return ({ tokenString := tokenString, type := .string, op := none }, s.strIt)

/-- The part of `readString` behind a leading question mark, which is in `tokenString` then. At the
end of a string its terminator is read. -/
def readBody (strHinter : Bytes → Bool) (begin_ tokenString it : Bytes) :
    Except Fault (Token × Bytes) :=
  if it.head? = some (octet '"') then
    let (tokenString, it) := readQuoted (tokenString ++ [octet '"']) it.tail
    let (tokenString, it) :=
      if it.head? = some (octet '?') then (tokenString ++ [octet '?'], it.tail)
      else (tokenString, it)
    finish ⟨tokenString, it, toInt tokenString.length, it⟩
  else
    let s := readPlain strHinter tokenString it (-1) begin_
    if s.lastValidStrSize < 0 ∨ (s.strIt = [] ∧ strHinter s.tokenString) then
      finish { s with
        lastValidStrSize := toInt s.tokenString.length, lastValidStrIt := s.strIt }
    else if s.lastValidStrSize > 0 then finish { s with strIt := s.lastValidStrIt }
    else finish s

def readString (strHinter : Bytes → Bool) (it : Bytes) :
    Except Fault (Token × Bytes) :=
  if it.head? = some (octet '?') then readBody strHinter it [octet '?'] it.tail
  else readBody strHinter it [] it

/-! ## `nextToken` -/

structure Tokenizer where
  strIt : Bytes
  beforeWasTerminal : Bool
  deriving Repr, DecidableEq

def defaultOp : Token where
  tokenString := []
  type := .operator
  op := some .intersect

/-- The loop skips spaces. The default operator is delivered in front of an operand that follows
another one. -/
def nextTokenLoop (strHinter : Bytes → Bool) (beforeWasTerminal : Bool) :
    Bytes → Except Fault (Token × Tokenizer)
  | [] => .ok (⟨[], .endOfInput, none⟩, ⟨[], beforeWasTerminal⟩)
  | c :: it =>
    if c = octet ' ' then nextTokenLoop strHinter beforeWasTerminal it
    else if (opMap c).isSome then .ok (⟨[c], .operator, opMap c⟩, ⟨it, false⟩)
    else if c = octet '(' then
      if beforeWasTerminal then .ok (defaultOp, ⟨c :: it, false⟩)
      else .ok (⟨[c], .braceOpen, none⟩, ⟨it, beforeWasTerminal⟩)
    else if c = octet ')' then .ok (⟨[c], .braceClose, none⟩, ⟨it, true⟩)
    else if beforeWasTerminal then .ok (defaultOp, ⟨c :: it, false⟩)
    else do
      let (token, it) ← readString strHinter (c :: it)
      return (token, ⟨it, true⟩)

def nextToken (strHinter : Bytes → Bool) (t : Tokenizer) : Except Fault (Token × Tokenizer) :=
  nextTokenLoop strHinter t.beforeWasTerminal t.strIt

def initTokenizer (query : Bytes) : Tokenizer where
  strIt := sanitize query
  beforeWasTerminal := false

/-! ## `parse` -/

def Token.kind (t : Token) : Kind :=
  match t.type with
  | .string => .operand
  | .operator => .operator
  | .braceOpen => .braceOpen
  | .braceClose => .braceClose
  | _ => .other

def parser (strHinter : Bytes → Bool) : Parser Token Node Tokenizer where
  kind := Token.kind
  leaf t := .leaf t.tokenString
  node o l r := .op o.op l r
  ntSa t := { t with type := .ntSa }
  nextToken := nextToken strHinter

/-- The loop of `parse` for at most so many rounds. -/
def run (strHinter : Bytes → Bool) (rounds : Nat) (query : Bytes) :
    Option (Except Fault (State Token Node Tokenizer)) :=
  match (parser strHinter).start (initTokenizer query) with
  | .error e => some (.error e)
  | .ok s => (parser strHinter).loop rounds s

def parse (strHinter : Bytes → Bool) (rounds : Nat) (query : Bytes) :
    Option (Except Fault (Option Node)) :=
  if (initTokenizer query).strIt = [] then some (.ok none)
  else (run strHinter rounds query).map fun r => r.map Parser.result

example : parse (fun _ => true) 60 ("a b+(c -d)".toList.map octet) =
    some (.ok (some (.op (some .intersect) (.leaf ("a b+".toList.map octet))
      (.op (some .diff) (.leaf [octet 'c']) (.leaf [octet 'd']))))) := by
  decide

end SetOpsOpTreeParser

end Sserialize
