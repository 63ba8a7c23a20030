import Reckoner.Stream

/-! Reading with a place in the token list and a depth that is counted up and down, one small
step at a time. What a step has still to do once something has come back stands in a list of
frames. A token looked for outside the list, a depth counted below zero and a floor that its
byte cannot hold leave a state without a next one. -/
namespace Reckoner

structure Cursor where
  source : String
  tokens : List Token
  position : Nat
  depth : Nat
  maxDepth : Nat
  limit : DigitLimit

namespace Cursor

/-- A list that does not end with the end of the input is given one. -/
def start (source : String) (tokens : List Token) (settings : Settings) : Cursor :=
  { source, position := 0, depth := 0, maxDepth := settings.maxDepth, limit := settings.digitLimit
    tokens :=
      if tokens.getLast?.map Token.kind = some .finish then tokens
      else tokens ++ [Token.finishAt source.utf8ByteSize] }

def peek (c : Cursor) : Option Token := c.tokens[c.position]?

/-- The last token is never passed. -/
def advance (c : Cursor) : Cursor :=
  if c.position + 1 < c.tokens.length then { c with position := c.position + 1 } else c

def eat (c : Cursor) : Option (Token × Cursor) := c.peek.map fun t => (t, c.advance)

def deeper (c : Cursor) : Cursor := { c with depth := c.depth + 1 }

def shallower (c : Cursor) : Option Cursor :=
  if 0 < c.depth then some { c with depth := c.depth - 1 } else none

/-- Operations on a stream, one after another; those inside a nesting are run one level
deeper, if there is room for it. -/
inductive Script where
  | done
  | peek (next : Script)
  | eat (next : Script)
  | read (goal : Goal) (next : Script)
  | nested (offset : Nat) (inner next : Script)

inductive Answer where
  | token (t : Token)
  | outcome (r : Except ParseError Expr)

def Script.perform : Script → Stream → List Answer × Stream
  | .done, s => ([], s)
  | .peek next, s =>
    let (answers, after) := next.perform s
    (.token s.peek :: answers, after)
  | .eat next, s =>
    let (answers, after) := next.perform s.eat.2
    (.token s.eat.1 :: answers, after)
  | .read goal next, s =>
    let (answers, after) := next.perform (s.read goal).2
    (.outcome (s.read goal).1 :: answers, after)
  | .nested offset inner next, s =>
    let (result, behind) := s.nested offset fun s => inner.perform s
    let (answers, after) := next.perform behind
    match result with
    | .ok inside => (inside ++ answers, after)
    | .error e => (.outcome (.error e) :: answers, after)

inductive Frame where
  /-- The end of a nesting, whatever comes back. -/
  | leave
  | resume (next : Script)
  /-- The first operand of an expression is read, its operators come next. -/
  | operators
  | close (offset : Nat)
  | root
  /-- The right operand of `op` is read, or extended by tighter operators. -/
  | right (op : Operator) (left : Expr) (floor : Nat)

inductive Task where
  | script (rest : Script)
  | call (goal : Goal)
  /-- The right operand is extended as long as a tighter operator follows. -/
  | climb (op : Operator) (left right : Expr) (floor : Nat)
  | back (outcome : Except ParseError Expr)

structure State where
  cursor : Cursor
  task : Task
  frames : List Frame
  answers : List Answer

namespace State

def start (source : String) (tokens : List Token) (settings : Settings) (script : Script) : State :=
  ⟨Cursor.start source tokens settings, .script script, [], []⟩

def turn (s : State) (task : Task) : State := { s with task }

def push (s : State) (frame : Frame) : State := { s with frames := frame :: s.frames }

def enter (s : State) (offset : Nat) (task : Task) (inner : List Frame) : State :=
  if s.cursor.depth < s.cursor.maxDepth then
    { s with cursor := s.cursor.deeper, task, frames := inner ++ .leave :: s.frames }
  else s.turn (.back (.error (.nestingTooDeep s.cursor.maxDepth offset)))

def leave (s : State) : Option State := s.cursor.shallower.map fun cursor => { s with cursor }

def operandFrom (s : State) (t : Token) : State :=
  match t.kind with
  | .number =>
    match Numeral.ofDecimal t.text s.cursor.limit with
    | .ok n => s.turn (.back (.ok (.literal n)))
    | .error cause => s.turn (.back (.error (.invalidLiteral t.start cause)))
  | .name => s.turn (.back (.ok (.var t.text)))
  | .opening => (s.push (.close t.start)).turn (.call .expression)
  | .root => (s.push .root).enter t.start (.call .operand) []
  | _ => s.turn (.back (.error t.unexpected))

def operand (s : State) : Option State :=
  s.cursor.eat.map fun (t, cursor) => operandFrom { s with cursor } t

def chain (s : State) (left : Expr) (floor : Nat) : Option State :=
  s.cursor.peek.bind fun t =>
    match nextOperator [t] with
    | .error e => some (s.turn (.back (.error e)))
    | .ok none => some (s.turn (.back (.ok left)))
    | .ok (some op) =>
      if floor ≤ op.level then
        s.cursor.eat.map fun (_, cursor) =>
          (({ s with cursor } : State).push (.right op left floor)).turn (.call .operand)
      else some (s.turn (.back (.ok left)))

def climb (s : State) (op : Operator) (left right : Expr) (floor : Nat) : Option State :=
  s.cursor.peek.bind fun t =>
    match nextOperator [t] with
    | .error e => some (s.turn (.back (.error e)))
    | .ok none => some (s.turn (.call (.chain (.binary op left right) floor)))
    | .ok (some next) =>
      if op.level < next.level then
        if floor + 1 < UInt8.size then
          some ((s.push (.right op left floor)).enter t.start (.call (.chain right (floor + 1))) [])
        else none
      else some (s.turn (.call (.chain (.binary op left right) floor)))

def close (s : State) (offset : Nat) (e : Expr) : Option State :=
  s.cursor.eat.map fun (t, cursor) =>
    ({ s with cursor } : State).turn
      (.back (if t.kind = .closing then .ok e else .error (.unmatchedParen offset)))

/-- Something has come back: the frame that has waited for it goes on. Only the end of a
nesting and a script take an error; it ends everything else. -/
def back (s : State) (outcome : Except ParseError Expr) : Option State :=
  match s.frames with
  | [] => none
  | frame :: frames =>
    let s := { s with frames }
    match frame, outcome with
    | .leave, _ => s.leave
    | .resume next, outcome => some { s with task := .script next, answers := s.answers ++ [.outcome outcome] }
    | .operators, .ok left => some (s.turn (.call (.chain left 0)))
    | .close offset, .ok e => s.close offset e
    | .root, .ok e => some (s.turn (.back (.ok (.root e))))
    | .right op left floor, .ok e => some (s.turn (.climb op left e floor))
    | _, .error e => some (s.turn (.back (.error e)))

def ended (s : State) : Option State :=
  match s.frames with
  | .leave :: frames => leave { s with frames }
  | .resume next :: frames => some { s with task := .script next, frames }
  | _ => none

def step (s : State) : Option State :=
  match s.task with
  | .script .done => s.ended
  | .script (.peek next) =>
    s.cursor.peek.map fun t => { s with task := .script next, answers := s.answers ++ [.token t] }
  | .script (.eat next) =>
    s.cursor.eat.map fun (t, cursor) =>
      { s with cursor, task := .script next, answers := s.answers ++ [.token t] }
  | .script (.read goal next) => some ((s.push (.resume next)).turn (.call goal))
  | .script (.nested offset inner next) => some ((s.push (.resume next)).enter offset (.script inner) [])
  | .call .operand => s.operand
  | .call (.chain left floor) => s.chain left floor
  | .call .expression => s.cursor.peek.map fun t => s.enter t.start (.call .operand) [.operators]
  | .climb op left right floor => s.climb op left right floor
  | .back outcome => s.back outcome

def Finished (s : State) : Prop := s.task = .script .done ∧ s.frames = []

end State
end Cursor
end Reckoner
