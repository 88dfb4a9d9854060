/-
Reading tokens. A cursor stands between the tokens that are behind and those
ahead and keeps what was reported on the way. A rule of the grammar reads from
a cursor and either returns what it found or fails, and leaves the cursor where
it stopped in both cases. A rule that uses itself is given by `fix`, which lets
it do so only with fewer tokens ahead; `fix_eq` unfolds it.
-/
import Lox.Diagnostic
import Lox.Tree.Basic

namespace Lox.Grammar

/-- A place in a list of tokens. -/
structure Cursor where
  /-- The tokens ahead, without the one that ends the program. -/
  rest : List Token
  /-- How many tokens are ahead. -/
  left : Nat
  /-- The token that ends the program. -/
  eof : Token
  /-- The number for the next node that refers to a binding. -/
  nextId : NodeId
  /-- What was reported so far. -/
  errors : Array ParseError
  /-- Whether anything was reported so far. -/
  failed : Bool
  left_eq : left = rest.length

namespace Cursor

/-- The next token. -/
def peek (c : Cursor) : Token := c.rest.headD c.eof

/-- Whether the next token is this mark or keyword. -/
def sees (c : Cursor) (s : Symbol) : Bool :=
  match c.rest with
  | t :: _ => t.is s
  | [] => false

/-- Goes to the tokens `rest`. -/
def goTo (c : Cursor) (rest : List Token) : Cursor :=
  { c with rest, left := rest.length, left_eq := rfl }

/-- Goes behind the next token. -/
def advance (c : Cursor) : Cursor :=
  match _h : c.rest with
  | [] => c
  | _ :: rest => { c with rest, left := c.left - 1, left_eq := by simp [c.left_eq, _h] }

/-- Reports an error at the place. -/
def report (c : Cursor) (e : ParseError) : Cursor :=
  { c with errors := c.errors.push e, failed := true }

end Cursor

/-- A rule of the grammar. -/
abbrev Rule := EStateM ParseError Cursor

namespace Rule

variable {α β : Type}

/-- Fails at the next token. -/
def fail (fault : ParseFault) : Rule α := fun c => .error ⟨c.peek, fault⟩ c

/-- Reports an error and goes on. -/
def report (e : ParseError) : Rule Unit := modify fun c => c.report e

/-- Whether no token is ahead. -/
def atEnd : Rule Bool := return (← get).rest.isEmpty

/-- The next token, which stays ahead. -/
def peek : Rule Token := return (← get).peek

/-- Whether the next token is this mark or keyword. -/
def sees (s : Symbol) : Rule Bool := return (← get).sees s

/-- Takes the next token if it is one of these marks and keywords. -/
def accept? (symbols : List Symbol) : Rule (Option Token) := fun c =>
  match c.rest with
  | t :: _ => if symbols.any t.is then .ok (some t) c.advance else .ok none c
  | [] => .ok none c

/-- Takes the next token, which has to be this mark or keyword. -/
def require (s : Symbol) (place : Place) : Rule Token := do
  match ← accept? [s] with
  | some t => return t
  | none => fail (.expectedSymbol s place)

/-- Takes the next token, which has to be a name. -/
def requireName (of : Named) : Rule Token := fun c =>
  match c.rest with
  | t :: _ => if t.isIdentifier then .ok t c.advance else fail (.expectedName of) c
  | [] => fail (.expectedName of) c

/-- A number for a node. -/
def freshId : Rule NodeId := fun c => .ok c.nextId { c with nextId := c.nextId + 1 }

/-- Handles the failure of a rule at the place where it failed. -/
def recover (rule : Rule α) (handler : ParseError → Rule α) : Rule α := fun c =>
  match rule c with
  | .ok a c' => .ok a c'
  | .error e c' => handler e c'

/-- A rule that came back to itself without having taken a token has found nothing. -/
def stuck : Rule α := fail .expectedExpression

/-- `rule`, for use with fewer than `bound` tokens ahead. -/
def below (bound : Nat) (rule : β → Rule α) : β → Rule α := fun b c =>
  if c.left < bound then rule b c else stuck c

/-- The rule that `body` describes in terms of itself, from the value `b` on. -/
def fix (body : (β → Rule α) → β → Rule α) (b : β) (c : Cursor) :
    EStateM.Result ParseError Cursor α :=
  body (fun b' c' => if _h : c'.left < c.left then fix body b' c' else stuck c') b c
termination_by c.left

theorem fix_eq (body : (β → Rule α) → β → Rule α) (b : β) (c : Cursor) :
    fix body b c = body (below c.left (fix body)) b c := by
  rw [fix]; rfl

end Rule

end Lox.Grammar
