import Sserialize.Library.InfixGrammar
import Sserialize.Storage.Bytes

/-!
# The shift/reduce parser of query strings

The automaton of `OpTreeParser::parse` and of `TreeBuilder::build`, which differ in their tokens,
their nodes and their tokenizer only. Stacks have their top at the head of the list.
-/

namespace Sserialize

open InfixGrammar

def octet (c : Char) : UInt8 := UInt8.ofNat c.toNat

namespace OpTreeParser

inductive ParseState where
  | init
  | braceOpened
  | terminal
  | beforeOpOrDone
  | beforeOpOrBrace
  | afterOp
  | braceClosed
  | opCompletedOrBeforeOp
  deriving Repr, DecidableEq

/-- The tokens, nodes and tokenizer of a parser. `ntSa` sets the type of a token to `NT_SA`. -/
structure Parser (Token Node Tokenizer : Type) extends Semantics Token Node where
  ntSa : Token → Token
  nextToken : Tokenizer → Except Fault (Token × Tokenizer)

/-- `consumed` is for the statements: the tokens that were pushed by a shift, the last one first. -/
structure State (Token Node Tokenizer : Type) where
  stateStack : List ParseState
  parseStack : List Token
  nodeStack : List Node
  token : Token
  tokenizer : Tokenizer
  done : Bool
  consumed : List Token

variable {Token Node Tokenizer : Type}

/-- `back()`, which needs an element. -/
def back {α : Type} : List α → Except Fault α
  | [] => .error .undefinedBehaviour
  | x :: _ => .ok x

/-- `pop_back()`, which needs an element. -/
def pop {α : Type} : List α → Except Fault (List α)
  | [] => .error .undefinedBehaviour
  | _ :: xs => .ok xs

namespace Parser

variable (p : Parser Token Node Tokenizer)

def shift (s : State Token Node Tokenizer) (state : ParseState) :
    Except Fault (State Token Node Tokenizer) := do
  let (token, tokenizer) ← p.nextToken s.tokenizer
  return { s with
    parseStack := s.token :: s.parseStack, stateStack := state :: s.stateStack, token := token,
    tokenizer := tokenizer, consumed := s.token :: s.consumed }

def goto (s : State Token Node Tokenizer) : Except Fault (State Token Node Tokenizer) := do
  match ← back s.stateStack with
  | .init => return { s with stateStack := .beforeOpOrDone :: s.stateStack }
  | .braceOpened => return { s with stateStack := .beforeOpOrBrace :: s.stateStack }
  | .afterOp => return { s with stateStack := .opCompletedOrBeforeOp :: s.stateStack }
  | _ => return { s with done := true }

def shiftOperand (s : State Token Node Tokenizer) : Except Fault (State Token Node Tokenizer) :=
  match p.kind s.token with
  | .operand => p.shift s .terminal
  | .braceOpen => p.shift s .braceOpened
  | _ => .ok { s with done := true }

def step (s : State Token Node Tokenizer) : Except Fault (State Token Node Tokenizer) := do
  match ← back s.stateStack with
  | .init | .braceOpened | .afterOp => p.shiftOperand s
  | .terminal =>
    let token ← back s.parseStack
    let parseStack ← pop s.parseStack
    let stateStack ← pop s.stateStack
    goto { s with
      parseStack := p.ntSa token :: parseStack, stateStack := stateStack,
      nodeStack := p.leaf token :: s.nodeStack }
  | .beforeOpOrDone =>
    if p.kind s.token = .operator then p.shift s .afterOp
    else return { s with done := true }
  | .beforeOpOrBrace =>
    if p.kind s.token = .operator then p.shift s .afterOp
    else if p.kind s.token = .braceClose then p.shift s .braceClosed
    else return { s with done := true }
  | .braceClosed =>
    let parseStack ← pop (← pop (← pop s.parseStack))
    let stateStack ← pop (← pop (← pop s.stateStack))
    goto { s with parseStack := p.ntSa s.token :: parseStack, stateStack := stateStack }
  | .opCompletedOrBeforeOp =>
    let rightOperand ← back s.nodeStack
    let nodeStack ← pop s.nodeStack
    let parseStack ← pop s.parseStack
    let op ← back parseStack
    let parseStack ← pop parseStack
    let leftOperand ← back nodeStack
    let nodeStack ← pop nodeStack
    let parseStack ← pop parseStack
    let stateStack ← pop (← pop (← pop s.stateStack))
    goto { s with
      parseStack := p.ntSa s.token :: parseStack, stateStack := stateStack,
      nodeStack := p.node op leftOperand rightOperand :: nodeStack }

def loop : Nat → State Token Node Tokenizer → Option (Except Fault (State Token Node Tokenizer))
  | 0, _ => none
  | rounds + 1, s =>
    if s.stateStack = [] ∨ s.done then some (.ok s)
    else
      match p.step s with
      | .error e => some (.error e)
      | .ok s => loop rounds s

def start (tokenizer : Tokenizer) : Except Fault (State Token Node Tokenizer) := do
  let (token, tokenizer) ← p.nextToken tokenizer
  return { stateStack := [.init], parseStack := [], nodeStack := [], token := token,
           tokenizer := tokenizer, done := false, consumed := [] }

def result (s : State Token Node Tokenizer) : Option Node := s.nodeStack.getLast?

end Parser

end OpTreeParser

end Sserialize

/-!
## What the parser computes

The stacks of a reachable state are those of a configuration: the operators and braces that are
open, and how far the operand behind them is read. On configurations no stack can be popped too
often; the loop runs them, every shift takes the next token, and a derivation of the tokens is run
to its value.
-/

namespace Sserialize

open InfixGrammar

namespace OpTreeParser

variable {Token Node Tokenizer : Type}

/-- What is open in front of an operand. An operator is kept with its left operand. -/
inductive Context (Token Node : Type) where
  | top
  | brace (c : Context Token Node) (open_ : Token)
  | operator (c : Context Token Node) (nt : Token) (left : Node) (op : Token)

namespace Context

def after : Context Token Node → ParseState
  | top => .beforeOpOrDone
  | brace _ _ => .beforeOpOrBrace
  | operator _ _ _ _ => .opCompletedOrBeforeOp

def states : Context Token Node → List ParseState
  | top => [.init]
  | brace c _ => .braceOpened :: c.states
  | operator c _ _ _ => .afterOp :: c.after :: c.states

def parses : Context Token Node → List Token
  | top => []
  | brace c t => t :: c.parses
  | operator c nt _ op => op :: nt :: c.parses

def nodes : Context Token Node → List Node
  | top => []
  | brace c _ => c.nodes
  | operator c _ left _ => left :: c.nodes

def isOperator : Context Token Node → Bool
  | operator _ _ _ _ => true
  | _ => false

def operators : Context Token Node → Nat
  | top => 0
  | brace c _ => c.operators
  | operator c _ _ _ => c.operators + 1

end Context

/-- How far the operand behind a context is read. -/
inductive Config (Token Node : Type) where
  | expecting (c : Context Token Node)
  | terminal (c : Context Token Node) (t : Token)
  | reduced (c : Context Token Node) (nt : Token) (v : Node)
  | closed (c : Context Token Node) (open_ nt close : Token) (v : Node)

namespace Config

def states : Config Token Node → List ParseState
  | expecting c => c.states
  | terminal c _ => .terminal :: c.states
  | reduced c _ _ => c.after :: c.states
  | closed c _ _ _ _ => .braceClosed :: .beforeOpOrBrace :: .braceOpened :: c.states

def parses : Config Token Node → List Token
  | expecting c => c.parses
  | terminal c t => t :: c.parses
  | reduced c nt _ => nt :: c.parses
  | closed c o nt cl _ => cl :: nt :: o :: c.parses

def nodes : Config Token Node → List Node
  | expecting c | terminal c _ => c.nodes
  | reduced c _ v | closed c _ _ _ v => v :: c.nodes

def weight : Config Token Node → Nat
  | expecting c => c.operators
  | terminal c _ => c.operators + 1
  | reduced c _ _ => c.operators
  | closed c _ _ _ _ => c.operators + 1

end Config

/-- A round shifts the token, reduces, or ends the loop. -/
inductive Action (Token Node : Type) where
  | shift (cfg : Config Token Node)
  | reduce (cfg : Config Token Node)
  | stop

variable (p : Parser Token Node Tokenizer)

def shiftOperand (c : Context Token Node) (token : Token) : Action Token Node :=
  match p.kind token with
  | .operand => .shift (.terminal c token)
  | .braceOpen => .shift (.expecting (.brace c token))
  | _ => .stop

def action (token : Token) : Config Token Node → Action Token Node
  | .expecting c => shiftOperand p c token
  | .terminal c t => .reduce (.reduced c (p.ntSa t) (p.leaf t))
  | .reduced .top nt v =>
    if p.kind token = .operator then .shift (.expecting (.operator .top nt v token)) else .stop
  | .reduced (.brace c o) nt v =>
    if p.kind token = .operator then .shift (.expecting (.operator (.brace c o) nt v token))
    else if p.kind token = .braceClose then .shift (.closed c o nt token v)
    else .stop
  | .reduced (.operator c _ left op) _ v => .reduce (.reduced c (p.ntSa token) (p.node op left v))
  | .closed c _ _ _ v => .reduce (.reduced c (p.ntSa token) v)

def Config.toState (cfg : Config Token Node) (token : Token) (tokenizer : Tokenizer)
    (consumed : List Token) : State Token Node Tokenizer where
  stateStack := cfg.states
  parseStack := cfg.parses
  nodeStack := cfg.nodes
  token := token
  tokenizer := tokenizer
  done := false
  consumed := consumed

def Action.outcome (token : Token) (tokenizer : Tokenizer) (consumed : List Token)
    (s : State Token Node Tokenizer) : Action Token Node → Except Fault (State Token Node Tokenizer)
  | .shift cfg => do
    let (next, tokenizer) ← p.nextToken tokenizer
    return cfg.toState next tokenizer (token :: consumed)
  | .reduce cfg => .ok (cfg.toState token tokenizer consumed)
  | .stop => .ok { s with done := true }

theorem goto_eq (c : Context Token Node) (s : State Token Node Tokenizer)
    (h : s.stateStack = c.states) :
    Parser.goto s = .ok { s with stateStack := c.after :: c.states } := by
  unfold Parser.goto
  rw [h]
  cases c <;> rfl

variable (cfg : Config Token Node)

theorem step_toState (token : Token) (tokenizer : Tokenizer) (consumed : List Token) :
    p.step (cfg.toState token tokenizer consumed) =
      (action p token cfg).outcome p token tokenizer consumed
        (cfg.toState token tokenizer consumed) := by
  cases cfg with
  | expecting c =>
    have hstep : p.step (Config.toState (.expecting c) token tokenizer consumed) =
        p.shiftOperand (Config.toState (.expecting c) token tokenizer consumed) := by
      cases c <;> rfl
    rw [hstep, Parser.shiftOperand, action, shiftOperand]
    have htoken : (Config.toState (.expecting c) token tokenizer consumed).token = token := rfl
    rw [htoken]
    cases p.kind token <;> rfl
  | terminal c t | closed c o nt cl v =>
    exact goto_eq c _ rfl
  | reduced c nt v =>
    cases c with
    | top =>
      have hstep : p.step (Config.toState (.reduced .top nt v) token tokenizer consumed) =
          if p.kind token = .operator then
            p.shift (Config.toState (.reduced .top nt v) token tokenizer consumed) .afterOp
          else .ok { Config.toState (.reduced .top nt v) token tokenizer consumed with
            done := true } := rfl
      rw [hstep, action]
      split <;> rfl
    | brace c o =>
      have hstep : p.step (Config.toState (.reduced (.brace c o) nt v) token tokenizer consumed) =
          if p.kind token = .operator then
            p.shift (Config.toState (.reduced (.brace c o) nt v) token tokenizer consumed) .afterOp
          else if p.kind token = .braceClose then
            p.shift (Config.toState (.reduced (.brace c o) nt v) token tokenizer consumed)
              .braceClosed
          else .ok { Config.toState (.reduced (.brace c o) nt v) token tokenizer consumed with
            done := true } := rfl
      rw [hstep, action]
      split
      · rfl
      · split <;> rfl
    | operator c nt' left op =>
      exact goto_eq c _ rfl

variable {token : Token}

theorem action_shift {cfg cfg' : Config Token Node} (h : action p token cfg = .shift cfg') :
    cfg'.weight ≤ cfg.weight + 1 ∧ p.kind token ≠ .other := by
  cases cfg with
  | expecting c =>
    rw [action, shiftOperand] at h
    split at h
    next hkind =>
      cases h
      exact ⟨Nat.le_refl _, by rw [hkind]; decide⟩
    next hkind =>
      cases h
      exact ⟨Nat.le_succ _, by rw [hkind]; decide⟩
    next => cases h
  | terminal c t => cases h
  | reduced c nt v =>
    cases c with
    | top =>
      rw [action] at h
      split at h
      next hkind =>
        cases h
        exact ⟨Nat.le_refl _, by rw [hkind]; decide⟩
      next => cases h
    | brace c o =>
      rw [action] at h
      split at h
      next hkind =>
        cases h
        exact ⟨Nat.le_refl _, by rw [hkind]; decide⟩
      next =>
        split at h
        next hkind =>
          cases h
          exact ⟨Nat.le_refl _, by rw [hkind]; decide⟩
        next => cases h
    | operator c nt' left op => cases h
  | closed c o nt cl v => cases h

theorem action_reduce {cfg cfg' : Config Token Node} (h : action p token cfg = .reduce cfg') :
    cfg'.weight < cfg.weight := by
  cases cfg with
  | expecting c =>
    rw [action, shiftOperand] at h
    split at h <;> cases h
  | terminal c t | closed c o nt cl v =>
    cases h
    exact Nat.lt_succ_self _
  | reduced c nt v =>
    cases c with
    | top =>
      rw [action] at h
      split at h <;> cases h
    | brace c o =>
      rw [action] at h
      split at h
      · cases h
      · split at h <;> cases h
    | operator c nt' left op =>
      cases h
      exact Nat.lt_succ_self _

/-! ## Token sequences -/

/-- The tokens that a tokenizer delivers until the end of its input or an exception. -/
inductive Delivers : Tokenizer → List Token → Except Fault Unit → Prop
  | fault {l : Tokenizer} {e : Fault} (h : p.nextToken l = .error e) : Delivers l [] (.error e)
  | endOfInput {l l' : Tokenizer} {t : Token} (h : p.nextToken l = .ok (t, l'))
      (ht : p.kind t = .other) : Delivers l [] (.ok ())
  | token {l l' : Tokenizer} {t : Token} {ts : List Token} {o : Except Fault Unit}
      (h : p.nextToken l = .ok (t, l')) (ht : p.kind t ≠ .other) (hrest : Delivers l' ts o) :
      Delivers l (t :: ts) o

/-- The tokens from the one that was read last. -/
inductive Reads : Token → Tokenizer → List Token → Except Fault Unit → Prop
  | endOfInput {t : Token} {l : Tokenizer} (ht : p.kind t = .other) : Reads t l [] (.ok ())
  | token {t : Token} {l : Tokenizer} {ts : List Token} {o : Except Fault Unit}
      (ht : p.kind t ≠ .other) (hrest : Delivers p l ts o) : Reads t l (t :: ts) o

variable {p}

variable {ts : List Token} {o : Except Fault Unit}

theorem Delivers.next {l : Tokenizer} (h : Delivers p l ts o) :
    (∃ e, p.nextToken l = .error e ∧ o = .error e) ∨
      ∃ t l', p.nextToken l = .ok (t, l') ∧ Reads p t l' ts o := by
  cases h with
  | fault h => exact .inl ⟨_, h, rfl⟩
  | endOfInput h ht => exact .inr ⟨_, _, h, .endOfInput ht⟩
  | token h ht hrest => exact .inr ⟨_, _, h, .token ht hrest⟩

theorem Reads.tail {t : Token} {l : Tokenizer} {ts : List Token} {o : Except Fault Unit}
    (h : Reads p t l ts o) (ht : p.kind t ≠ .other) : ∃ us, ts = t :: us ∧ Delivers p l us o := by
  cases h with
  | endOfInput hother => exact absurd hother ht
  | token _ hrest => exact ⟨_, rfl, hrest⟩

theorem Config.states_ne_nil : cfg.states ≠ [] := by
  cases cfg with
  | expecting c => cases c <;> simp [Config.states, Context.states]
  | terminal c t | reduced c nt v | closed c o nt cl v => simp [Config.states]

theorem loop_toState (token : Token) (tokenizer : Tokenizer) (consumed : List Token)
    (rounds : Nat) :
    p.loop (rounds + 1) (cfg.toState token tokenizer consumed) =
      match (action p token cfg).outcome p token tokenizer consumed
        (cfg.toState token tokenizer consumed) with
      | .error e => some (.error e)
      | .ok s => p.loop rounds s := by
  have hne : ¬ ((cfg.toState token tokenizer consumed).stateStack = [] ∨
      (cfg.toState token tokenizer consumed).done = true) := by
    simp [Config.toState, cfg.states_ne_nil]
  cases hout : (action p token cfg).outcome p token tokenizer consumed
      (cfg.toState token tokenizer consumed) with
  | error e => simp only [Parser.loop, if_neg hne, step_toState, hout]
  | ok s => simp only [Parser.loop, if_neg hne, step_toState, hout]

/-- What is known when the loop ends: it took a part of the tokens, each of them once and in order,
and the only exceptions are those of the tokenizer. -/
def Ends (ts consumed : List Token) (o : Except Fault Unit) :
    Except Fault (State Token Node Tokenizer) → Prop
  | .ok s => ∃ shifted rest, ts = shifted ++ rest ∧ s.consumed = shifted.reverse ++ consumed
  | .error e => o = .error e

variable {tokenizer : Tokenizer}

theorem loop_ends {consumed ts : List Token} (hreads : Reads p token tokenizer ts o)
    {rounds : Nat} (hrounds : 2 * ts.length + cfg.weight + 2 ≤ rounds) :
    ∃ r, p.loop rounds (cfg.toState token tokenizer consumed) = some r ∧ Ends ts consumed o r := by
  induction rounds generalizing cfg token tokenizer consumed ts with
  | zero => omega
  | succ rounds ih =>
    rw [loop_toState]
    cases haction : action p token cfg with
    | stop =>
      obtain ⟨k, rfl⟩ : ∃ k, rounds = k + 1 := ⟨rounds - 1, by omega⟩
      refine ⟨.ok { cfg.toState token tokenizer consumed with done := true }, ?_, [], ts, rfl, rfl⟩
      rw [Action.outcome]
      exact if_pos (Or.inr rfl)
    | reduce cfg' =>
      have hweight := action_reduce p haction
      exact ih cfg' hreads (by omega)
    | shift cfg' =>
      obtain ⟨hweight, hkind⟩ := action_shift p haction
      obtain ⟨us, rfl, hdelivers⟩ := hreads.tail hkind
      rw [List.length_cons] at hrounds
      rcases hdelivers.next with ⟨e, he, ho⟩ | ⟨next, tokenizer', hnext, hreads'⟩
      · refine ⟨.error e, ?_, ho⟩
        rw [Action.outcome, he]
        rfl
      · obtain ⟨r, hr, hends⟩ :
            ∃ r, p.loop rounds (cfg'.toState next tokenizer' (token :: consumed)) = some r ∧
              Ends us (token :: consumed) o r :=
          ih cfg' hreads' (by omega)
        refine ⟨r, ?_, ?_⟩
        · rw [Action.outcome, hnext]
          exact hr
        · cases r with
          | error e => exact hends
          | ok s =>
            obtain ⟨shifted, rest, hus, hconsumed⟩ := hends
            exact ⟨token :: shifted, rest, by rw [hus]; rfl, by rw [hconsumed]; simp⟩

/-! ## Derivations -/

theorem loop_shift {cfg cfg' : Config Token Node} (consumed : List Token)
    (h : action p token cfg = .shift cfg')
    (hreads : Reads p token tokenizer (token :: ts) (.ok ())) :
    ∃ next tokenizer', Reads p next tokenizer' ts (.ok ()) ∧
      ∀ rounds, p.loop (rounds + 1) (cfg.toState token tokenizer consumed) =
        p.loop rounds (cfg'.toState next tokenizer' (token :: consumed)) := by
  obtain ⟨-, hkind⟩ := action_shift p h
  obtain ⟨us, hus, hdelivers⟩ := hreads.tail hkind
  cases hus
  rcases hdelivers.next with ⟨e, -, ho⟩ | ⟨next, tokenizer', hnext, hreads'⟩
  · cases ho
  · refine ⟨next, tokenizer', hreads', fun rounds => ?_⟩
    rw [loop_toState, h, Action.outcome, hnext]
    rfl

theorem loop_reduce {cfg : Config Token Node} (cfg' : Config Token Node) (tokenizer : Tokenizer)
    (consumed : List Token) (h : action p token cfg = .reduce cfg') (rounds : Nat) :
    p.loop (rounds + 1) (cfg.toState token tokenizer consumed) =
      p.loop rounds (cfg'.toState token tokenizer consumed) := by
  rw [loop_toState, h]
  rfl

def RunsTo (p : Parser Token Node Tokenizer) (c : Context Token Node) (ts : List Token)
    (v : Node) : Prop :=
  ∀ (rest : List Token) (token : Token) (tokenizer : Tokenizer) (consumed : List Token),
    Reads p token tokenizer (ts ++ rest) (.ok ()) →
    ∃ (rounds : Nat) (nt next : Token) (tokenizer' : Tokenizer),
      Reads p next tokenizer' rest (.ok ()) ∧
      ∀ n, p.loop (n + rounds) (Config.toState (.expecting c) token tokenizer consumed) =
        p.loop n (Config.toState (.reduced c nt v) next tokenizer' (ts.reverse ++ consumed))

theorem Reads.head_eq {t u : Token} {l : Tokenizer} (h : Reads p t l (u :: ts) o) : t = u := by
  cases h
  rfl

theorem runsTo_of_derives {level : Level} {v : Node} (h : Derives p.toSemantics level ts v)
    (c : Context Token Node) (hc : level = .expression → c.isOperator = false) : RunsTo p c ts v := by
  induction h generalizing c with
  | single _ ih => exact ih c (fun h => by cases h)
  | @operand t ht =>
    intro rest token tokenizer consumed hreads
    obtain rfl := hreads.head_eq
    have hshift : action p token (.expecting c) = .shift (.terminal c token) := by
      simp only [action, shiftOperand, ht]
    obtain ⟨next, tokenizer', hreads', hloop⟩ := loop_shift consumed hshift hreads
    refine ⟨2, p.ntSa token, next, tokenizer', hreads', fun n => ?_⟩
    rw [hloop (n + 1), loop_reduce (.reduced c (p.ntSa token) (p.leaf token)) tokenizer'
      (token :: consumed) rfl]
    rfl
  | @group ts o cl v ho _ hcl ih =>
    intro rest token tokenizer consumed hreads
    rw [List.cons_append, List.append_assoc] at hreads
    obtain rfl := hreads.head_eq
    have hshift : action p token (.expecting c) = .shift (.expecting (.brace c token)) := by
      simp only [action, shiftOperand, ho]
    obtain ⟨next, tokenizer', hreads', hopen⟩ := loop_shift consumed hshift hreads
    obtain ⟨k, nt, close, tokenizer'', hreads'', hinner⟩ :=
      ih (.brace c token) (fun _ => rfl) ([cl] ++ rest) next tokenizer' (token :: consumed) hreads'
    obtain rfl := hreads''.head_eq
    have hclose : action p close (.reduced (.brace c token) nt v) =
        .shift (.closed c token nt close v) := by
      simp [action, hcl]
    obtain ⟨next', tokenizer₃, hreads₃, hshiftClose⟩ :=
      loop_shift (ts.reverse ++ token :: consumed) hclose hreads''
    refine ⟨k + 3, p.ntSa next', next', tokenizer₃, hreads₃, fun n => ?_⟩
    rw [show n + (k + 3) = (n + 2 + k) + 1 by omega, hopen, hinner, hshiftClose (n + 1),
      loop_reduce (.reduced c (p.ntSa next') v) tokenizer₃ _ rfl]
    simp
  | @operator ts us o l r _ ho _ ihl ihr =>
    have hcop := hc rfl
    intro rest token tokenizer consumed hreads
    rw [List.append_assoc] at hreads
    obtain ⟨k, nt, op, tokenizer', hreads', hleft⟩ := ihl c hc _ token tokenizer consumed hreads
    obtain rfl := hreads'.head_eq
    have hshift : action p op (.reduced c nt l) =
        .shift (.expecting (.operator c nt l op)) := by
      cases c with
      | top | brace c b => exact if_pos ho
      | operator c nt' left op' => cases hcop
    obtain ⟨next, tokenizer₂, hreads₂, hop⟩ :=
      loop_shift (ts.reverse ++ consumed) hshift hreads'
    obtain ⟨m, nt', next', tokenizer₃, hreads₃, hright⟩ :=
      ihr (.operator c nt l op) (fun h => by cases h) rest next tokenizer₂
        (op :: (ts.reverse ++ consumed)) hreads₂
    refine ⟨k + m + 2, p.ntSa next', next', tokenizer₃, hreads₃, fun n => ?_⟩
    rw [show n + (k + m + 2) = (n + 1 + m) + 1 + k by omega, hleft, hop, hright,
      loop_reduce (.reduced c (p.ntSa next') (p.node op l r)) tokenizer₃ _ rfl]
    simp

variable {s : State Token Node Tokenizer}

theorem loop_mono {rounds : Nat} {r} (h : p.loop rounds s = some r) (n : Nat) :
    p.loop (rounds + n) s = some r := by
  induction rounds generalizing s with
  | zero => cases h
  | succ rounds ih =>
    rw [show rounds + 1 + n = (rounds + n) + 1 by omega]
    rw [Parser.loop] at h ⊢
    split
    next hdone => rwa [if_pos hdone] at h
    next hdone =>
      rw [if_neg hdone] at h
      cases hstep : p.step s with
      | error e => rwa [hstep] at h
      | ok s' =>
        rw [hstep] at h
        exact ih h

/-- On the tokens of an expression the parser returns the value of their derivation and takes all
tokens. -/
theorem loop_of_derives {v : Node} (h : Derives p.toSemantics .expression ts v)
    (hstart : p.start tokenizer = .ok s) (hdelivers : Delivers p tokenizer ts (.ok ()))
    {rounds : Nat} {r} (hloop : p.loop rounds s = some r) :
    ∃ s', r = .ok s' ∧ Parser.result s' = some v ∧ s'.consumed = ts.reverse := by
  obtain ⟨next, tokenizer', hnext, hreads⟩ : ∃ t l', p.nextToken tokenizer = .ok (t, l') ∧
      Reads p t l' ts (.ok ()) := by
    rcases hdelivers.next with ⟨e, -, ho⟩ | hnext
    · cases ho
    · exact hnext
  rw [Parser.start, hnext] at hstart
  cases hstart
  obtain ⟨k, nt, last, tokenizer'', hlast, hrun⟩ :=
    runsTo_of_derives h .top (fun _ => rfl) [] next tokenizer' [] (by rwa [List.append_nil])
  have hother : p.kind last = .other := by
    cases hlast
    assumption
  have hstop : action p last (.reduced .top nt v) = .stop := by
    simp [action, hother]
  have hend : ∀ n, p.loop (n + 2)
      (Config.toState (.reduced .top nt v) last tokenizer'' (ts.reverse ++ [])) =
        some (.ok { Config.toState (.reduced .top nt v) last tokenizer'' (ts.reverse ++ []) with
          done := true }) := by
    intro n
    rw [loop_toState, hstop, Action.outcome]
    exact if_pos (Or.inr rfl)
  have hall := loop_mono hloop (k + 2)
  have hsum : p.loop (rounds + 2 + k) (Config.toState (.expecting .top) next tokenizer' []) =
      some r := by
    rw [show rounds + 2 + k = rounds + (k + 2) by omega]
    exact hall
  rw [hrun, hend] at hsum
  cases hsum
  exact ⟨_, rfl, rfl, by simp [Config.toState]⟩

end OpTreeParser

end Sserialize
