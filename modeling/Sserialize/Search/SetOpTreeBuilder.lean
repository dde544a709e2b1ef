import Sserialize.ItemIndex.ItemIndex
import Sserialize.Library.OrderedMap
import Sserialize.Search.OpTreeParser

/-!
# `SetOpTreePrivateComplex::TreeBuilder`

The nodes of the tree, the tokenizer of queries with filters and the builder of trees. A string is
its bytes and an iterator the rest of the string. Positions in the query are left out: only the
character hints use them.
-/

namespace Sserialize

open InfixGrammar

namespace SetOpTreePrivateComplex

open OpTreeParser

/-! ## Filters and nodes -/

/-- The operations of `SelectableOpFilter::SupportedOps`. -/
inductive SupportedOps where
  | opIntersect
  | opUnite
  | opDiffFirst
  | opDiffSecond
  | opXor
  deriving Repr, DecidableEq

def SupportedOps.value : SupportedOps → Nat
  | opIntersect => 1
  | opUnite => 2
  | opDiffFirst => 4
  | opDiffSecond => 8
  | opXor => 16

/-- `SetOpTree::SelectableOpFilter`; `apply` is its `operator()`. -/
structure SelectableOpFilter where
  supportedOps : Nat
  apply : SupportedOps → Bytes → ItemIndex → ItemIndex
  complete : Bytes → ItemIndex

def externalFunctoid (f : Bytes → ItemIndex) : SelectableOpFilter where
  supportedOps := 0
  apply op str partner :=
    match op with
    | .opIntersect => .apply .intersect (f str) partner
    | .opUnite => .apply .unite (f str) partner
    | .opDiffFirst => .apply .difference (f str) partner
    | .opDiffSecond => .apply .difference partner (f str)
    | .opXor => .apply .symmetricDifference (f str) partner
  complete := f

/-- `StringCompleter::QuerryType`, the bits of an `uint8_t`. -/
abbrev QuerryType := Nat

def qtExact : QuerryType := 1

def qtPrefix : QuerryType := 2

def qtSuffix : QuerryType := 4

def qtSubstring : QuerryType := 8

def qtCaseInsensitive : QuerryType := 16

/-- `index` is there if `cached` is set. An operation that is not in the map of the operators has no
type. -/
inductive Node where
  | invalid
  | complete (cached : Option ItemIndex) (completeString : Bytes) (cqtype : QuerryType)
  | external (cached : Option ItemIndex) (completeString : Bytes)
      (externalFunc : SelectableOpFilter)
  | operation (cached : Option ItemIndex) (type : Option SetOp) (left right : Node)

namespace Node

def cached : Node → Option ItemIndex
  | invalid => none
  | complete c _ _ | external c _ _ | operation c _ _ _ => c

def index (n : Node) : ItemIndex := n.cached.getD ItemIndex.empty

def efSupport (op : SupportedOps) : Node → Bool
  | external _ _ externalFunc => externalFunc.supportedOps &&& op.value ≠ 0
  | _ => false

def efApply (op : SupportedOps) (partner : ItemIndex) : Node → ItemIndex
  | external _ completeString externalFunc => externalFunc.apply op completeString partner
  | _ => ItemIndex.empty

end Node

/-! ## `Tokenizer` -/

inductive TokenType where
  | string
  | external
  | operator
  | braceOpen
  | braceClose
  | endOfInput
  | ntSa
  | invalid
  deriving Repr, DecidableEq

/-- The value of the `opMap` or of the `externalMap`, or `0xFFFFFFFF`. -/
inductive TokenOp where
  | none
  | operation (op : SetOp)
  | external (id : Nat)
  deriving Repr, DecidableEq

structure Token where
  tokenString : Bytes
  type : TokenType
  op : TokenOp
  deriving Repr, DecidableEq

def opMap (c : UInt8) : Option SetOp :=
  if c = octet '+' then some .unite
  else if c = octet '-' then some .difference
  else if c = octet '/' then some .intersect
  else if c = octet '^' then some .symmetricDifference
  else none

/-- The loop of `sanitize`, which counts braces in a `uint32_t`. Missing braces are appended. -/
def sanitizeLoop : Nat → Bool → Bytes → Bytes
  | braceCount, _, [] => List.replicate braceCount (octet ')')
  | braceCount, beforeWasOp, c :: str =>
    if c = octet '\\' then
      match str with
      | [] => List.replicate braceCount (octet ')')
      | e :: str => c :: e :: sanitizeLoop braceCount beforeWasOp str
    else if c = octet ')' then
      if braceCount = 0 then sanitizeLoop braceCount beforeWasOp str
      else c :: sanitizeLoop (braceCount - 1) beforeWasOp str
    else if (opMap c).isSome then
      if beforeWasOp then sanitizeLoop braceCount beforeWasOp str
      else c :: sanitizeLoop braceCount true str
    else if c = octet '(' then c :: sanitizeLoop (u32 (braceCount + 1)) beforeWasOp str
    else c :: sanitizeLoop braceCount false str

def sanitize (str : Bytes) : Bytes := sanitizeLoop 0 false str

/-- The loop of `readString`, with the string that is read and what is behind it. -/
def readString : Bytes → Bytes → Bytes × Bytes
  | tokenString, [] => (tokenString, [])
  | tokenString, c :: it =>
    if c = octet '\\' then
      match it with
      | [] => (tokenString, [])
      | e :: it => readString (tokenString ++ [e]) it
    else if (opMap c).isSome ∨ c = octet '$' ∨ c = octet ' ' ∨ c = octet '(' ∨ c = octet ')' then
      (tokenString, c :: it)
    else readString (tokenString ++ [c]) it

def readName : Bytes → Bytes → Bool × Bytes × Bytes
  | efName, [] => (true, efName, [])
  | efName, c :: it =>
    if c = octet '[' then (true, efName, it)
    else if c = octet ' ' then (false, efName, c :: it)
    else readName (efName ++ [c]) it

def readValue : Bytes → Bytes → Bytes × Bytes
  | efValue, [] => (efValue, [])
  | efValue, c :: it =>
    if c = octet '\\' then
      match it with
      | [] => (efValue, [])
      | e :: it => readValue (efValue ++ [e]) (e :: it)
    else if c = octet ']' then (efValue, it)
    else readValue (efValue ++ [c]) it

variable (externalFunctoids : List (Bytes × SelectableOpFilter))

/-- `readExternal` behind the dollar sign. -/
def readExternal (it : Bytes) : Token × Bytes :=
  match readName [] it with
  | (false, _, it) => (⟨[], .external, .none⟩, it)
  | (true, efName, it) =>
    let (efValue, it) := readValue [] it
    match externalFunctoids.findIdx? fun entry => entry.1 = efName with
    | some id => (⟨efValue, .external, .external id⟩, it)
    | none => (⟨efValue, .external, .none⟩, it)

structure Tokenizer where
  strIt : Bytes
  beforeWasTerminal : Bool
  deriving Repr, DecidableEq

/-- `createDefaultOp`. -/
def defaultOp : Token where
  tokenString := []
  type := .operator
  op := .operation .intersect

/-- `next`. The loop skips spaces. The default operator is delivered in front of an operand that
follows another one. -/
def nextLoop (beforeWasTerminal : Bool) : Bytes → Token × Tokenizer
  | [] => (⟨[], .endOfInput, .none⟩, ⟨[], beforeWasTerminal⟩)
  | c :: it =>
    if c = octet ' ' then nextLoop beforeWasTerminal it
    else
      match opMap c with
      | some op => (⟨[c], .operator, .operation op⟩, ⟨it, false⟩)
      | none =>
        if c = octet '(' then
          if beforeWasTerminal then (defaultOp, ⟨c :: it, false⟩)
          else (⟨[c], .braceOpen, .none⟩, ⟨it, beforeWasTerminal⟩)
        else if c = octet ')' then (⟨[c], .braceClose, .none⟩, ⟨it, true⟩)
        else if beforeWasTerminal then (defaultOp, ⟨c :: it, false⟩)
        else if c = octet '$' then
          let (token, it) := readExternal externalFunctoids it
          (token, ⟨it, true⟩)
        else
          let (tokenString, it) := readString [] (c :: it)
          (⟨tokenString, .string, .none⟩, ⟨it, true⟩)

def next (t : Tokenizer) : Token × Tokenizer :=
  nextLoop externalFunctoids t.beforeWasTerminal t.strIt

def initTokenizer (query : Bytes) : Tokenizer where
  strIt := sanitize query
  beforeWasTerminal := false

/-! ## `TreeBuilder` -/

def createExternalNode (token : Token) : Node :=
  match token.op with
  | .external id =>
    match externalFunctoids[id]? with
    | some entry => .external none token.tokenString entry.2
    | none => .invalid
  | _ => .invalid

def createOperationNode (token : Token) (left right : Node) : Node :=
  match token.op with
  | .operation op => .operation none (some op) left right
  | _ => .operation none none left right

def querryType (t : Nat) : QuerryType :=
  if t = 1 then qtExact
  else if t = 2 then qtPrefix
  else if t = 4 then qtSuffix
  else qtSubstring

/-- `completeString` and `cqtype` of `createStringCompletionNode`. -/
def stringCompletion (str : Bytes) : Bytes × QuerryType :=
  if str = [] then (str, qtPrefix)
  else if str.head? = some (octet '"') then
    let str := str.tail
    let str := if str.getLast? = some (octet '"') then str.dropLast else str
    (str, querryType 1 ||| qtCaseInsensitive)
  else
    let (t, str) := if str.head? = some (octet '*') then (1 <<< 2, str.tail) else (1, str)
    let (t, str) := if str.getLast? = some (octet '*') then (t <<< 1, str.dropLast) else (t, str)
    let t := if t = 1 then 8 else t
    (str, querryType t ||| qtCaseInsensitive)

def createStringCompletionNode (token : Token) : Node :=
  .complete none (stringCompletion token.tokenString).1 (stringCompletion token.tokenString).2

def createNode (token : Token) : Node :=
  if token.type = .external then createExternalNode externalFunctoids token
  else createStringCompletionNode token

def Token.kind (t : Token) : Kind :=
  match t.type with
  | .string | .external => .operand
  | .operator => .operator
  | .braceOpen => .braceOpen
  | .braceClose => .braceClose
  | _ => .other

def parser : Parser Token Node Tokenizer where
  kind := Token.kind
  leaf := createNode externalFunctoids
  node := createOperationNode
  ntSa t := { t with type := .ntSa }
  nextToken t := .ok (next externalFunctoids t)

abbrev Completions := List ((Bytes × QuerryType) × ItemIndex)

structure BuildState where
  parse : State Token Node Tokenizer
  cmpStrings : Completions

def addCompletion (token : Token) (cmpStrings : Completions) : Completions :=
  if token.type = .external then cmpStrings
  else OrderedMap.assign (stringCompletion token.tokenString) ItemIndex.empty cmpStrings

/-- One round of the loop of `build`. -/
def buildStep (s : BuildState) : Except Fault BuildState := do
  let parse ← (parser externalFunctoids).step s.parse
  match s.parse.stateStack, s.parse.parseStack with
  | .terminal :: _, token :: _ =>
    return { parse := parse, cmpStrings := addCompletion token s.cmpStrings }
  | _, _ => return { s with parse := parse }

def buildLoop : Nat → BuildState → Option (Except Fault BuildState)
  | 0, _ => none
  | rounds + 1, s =>
    if s.parse.stateStack = [] ∨ s.parse.done then some (.ok s)
    else
      match buildStep externalFunctoids s with
      | .error e => some (.error e)
      | .ok s => buildLoop rounds s

def build (rounds : Nat) (query : Bytes) : Option (Except Fault (Option Node × Completions)) :=
  if (initTokenizer query).strIt = [] then some (.ok (none, []))
  else
    match (parser externalFunctoids).start (initTokenizer query) with
    | .error e => some (.error e)
    | .ok parse =>
      (buildLoop externalFunctoids rounds { parse := parse, cmpStrings := [] }).map fun r =>
        r.map fun s => (Parser.result s.parse, s.cmpStrings)

end SetOpTreePrivateComplex

end Sserialize
