/-
Programs: the trees of a list of tokens, and what was reported on the way.
-/
import Lox.Grammar.Statement

namespace Lox.Grammar

open Rule

/-- A statement of a program behind those found so far, and `more` up to the end. -/
def programStep (more : List Stmt → Rule (List Stmt)) (found : List Stmt) : Rule (List Stmt) := do
  if ← atEnd then return found.reverse
  match ← declaration with
  | some s => more (s :: found)
  | none => more found

/-- The statements of a program behind those found so far. Declarations that fail are left out. -/
def programFrom : List Stmt → Rule (List Stmt) := fix programStep

/-- The statements of a whole program. -/
def program : Rule (List Stmt) := programFrom []

/-- What a list of tokens is read as: the statements that could be read, the errors in the order
in which they were reported, whether there are any, and the first node number that was not used. -/
structure Parsed where
  statements : List Stmt
  errors : List ParseError
  failed : Bool
  nextId : NodeId

/-- The token that ends a program: the first of its kind, or one on the line of the last token. -/
def endOf (tokens : List Token) : Token :=
  (tokens.find? Token.isEof).getD (.eof ((tokens.getLast?.map Token.line).getD 1))

/-- The start of a program. Tokens behind the end do not belong to it. -/
def Cursor.ofTokens (tokens : List Token) (firstId : NodeId) : Cursor :=
  let rest := tokens.takeWhile fun t => !t.isEof
  { rest, left := rest.length, eof := endOf tokens, nextId := firstId, errors := #[],
    failed := false, left_eq := rfl }

/-- Reads tokens as a program whose nodes are numbered from `firstId` on. -/
def parse (tokens : List Token) (firstId : NodeId) : Parsed :=
  match program (Cursor.ofTokens tokens firstId) with
  | .ok statements c => ⟨statements, c.errors.toList, c.failed, c.nextId⟩
  | .error e c => ⟨[], (c.report e).errors.toList, (c.report e).failed, c.nextId⟩

end Lox.Grammar
