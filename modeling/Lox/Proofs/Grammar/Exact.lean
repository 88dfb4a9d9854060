/-
The parser accepts exactly the grammar, and the trees it returns are those that
the grammar gives, with every `else` at the nearest open `if`.
-/
import Lox.Proofs.Grammar.SoundStatement
import Lox.Proofs.Grammar.CompleteStatement
import Lox.Proofs.Grammar.NearestElse

namespace Lox

namespace Ebnf

/-! ## The grammar without the rule for `else` -/

mutual

theorem loose_statement : ∀ {ts : List Token} {s : Stmt} {opens : Bool},
    Statement true ts s opens → Statement false ts s opens
  | _, _, _, .expression h => .expression h
  | _, _, _, .print hprint h hsemicolon => .print hprint h hsemicolon
  | _, _, _, .return hreturn h hsemicolon => .return hreturn h hsemicolon
  | _, _, _, .for hfor hopen hinit htest hsemicolon hstep hclose hbody =>
    .for hfor hopen hinit htest hsemicolon hstep hclose (loose_statement hbody)
  | _, _, _, .if hif hopen htest hclose hthen =>
    .if hif hopen htest hclose (loose_statement hthen)
  | _, _, _, .ifElse hif hopen htest hclose hthen _ helse hs =>
    .ifElse hif hopen htest hclose (loose_statement hthen) (fun h => by cases h) helse
      (loose_statement hs)
  | _, _, _, .while hwhile hopen htest hclose hbody =>
    .while hwhile hopen htest hclose (loose_statement hbody)
  | _, _, _, .block h => .block (loose_block h)

theorem loose_declaration : ∀ {ts : List Token} {s : Stmt}, Declaration true ts s →
    Declaration false ts s
  | _, _, .class hclass hname hopen hmethods hclose =>
    .class hclass hname hopen (loose_methods hmethods) hclose
  | _, _, .function hfun h => .function hfun (loose_function h)
  | _, _, .variable h => .variable h
  | _, _, .statement h => .statement (loose_statement h)

theorem loose_declarations : ∀ {ts : List Token} {ss : List Stmt}, Declarations true ts ss →
    Declarations false ts ss
  | _, _, .nil => .nil
  | _, _, .cons h hmore => .cons (loose_declaration h) (loose_declarations hmore)

theorem loose_block : ∀ {ts : List Token} {ss : List Stmt}, Block true ts ss → Block false ts ss
  | _, _, .intro hopen h hclose => .intro hopen (loose_declarations h) hclose

theorem loose_function : ∀ {ts : List Token} {d : FunctionDecl}, Function true ts d →
    Function false ts d
  | _, _, .intro hname hopen hparams hclose h => .intro hname hopen hparams hclose (loose_block h)

theorem loose_methods : ∀ {ts : List Token} {ds : List FunctionDecl}, Methods true ts ds →
    Methods false ts ds
  | _, _, .nil => .nil
  | _, _, .cons h hmore => .cons (loose_function h) (loose_methods hmore)

end

end Ebnf

namespace Grammar

open Rule

/-! ## Programs -/

/-- The tokens of a program, without its end. -/
def bodyOf (tokens : List Token) : List Token := tokens.takeWhile fun t => !t.isEof

theorem isEof_endOf (tokens : List Token) : (endOf tokens).isEof = true := by
  unfold endOf
  cases h : tokens.find? Token.isEof with
  | none => rfl
  | some t => exact List.find?_some (p := Token.isEof) h

theorem bodyOf_append {body : List Token} {eof : Token} (hbody : ∀ t ∈ body, t.isEof = false)
    (heof : eof.isEof = true) : bodyOf (body ++ [eof]) = body := by
  rw [bodyOf, List.takeWhile_append_of_pos fun t ht => by rw [hbody t ht]; rfl]
  simp [heof]

/-- Numbers are only used up. -/
theorem le_nextId_parse (tokens : List Token) (firstId : NodeId) :
    firstId ≤ (parse tokens firstId).nextId := by
  have h := (sound_program.reaches (Cursor.ofTokens tokens firstId)).nextId
  unfold parse
  split
  next hok => rwa [hok] at h
  next herror => rwa [herror] at h

/-- The parser has failed exactly if it has reported an error. -/
theorem parse_failed (tokens : List Token) (firstId : NodeId) :
    (parse tokens firstId).failed = true ↔ (parse tokens firstId).errors ≠ [] := by
  have hstart : (Cursor.ofTokens tokens firstId).Flagged := by
    simp [Cursor.Flagged, Cursor.ofTokens]
  have h := (sound_program.reaches (Cursor.ofTokens tokens firstId)).flagged hstart
  unfold parse
  split
  next ss c hok =>
    rw [hok] at h
    exact h.trans (not_congr Array.toList_eq_nil_iff.symm)
  next e c herror =>
    rw [herror] at h
    exact ((c.reaches_report e).flagged h).trans (not_congr Array.toList_eq_nil_iff.symm)

/-- A program that is read without an error is one of the grammar, and its references are numbered
one by one. -/
theorem parse_sound {tokens : List Token} {firstId : NodeId}
    (h : (parse tokens firstId).errors = []) :
    Ebnf.Program true (bodyOf tokens) (parse tokens firstId).statements ∧
      Stmt.AllWithinArity (parse tokens firstId).statements ∧
      Span firstId (parse tokens firstId).nextId
        (Stmt.allReferences (parse tokens firstId).statements) := by
  unfold parse at h ⊢
  split at h
  next ss c hok =>
    have hquiet : c.errors = (Cursor.ofTokens tokens firstId).errors := Array.toList_eq_nil_iff.1 h
    obtain ⟨hend, ⟨ts, hts, hp, hw⟩, hspan⟩ := sound_program.quiet (isEof_endOf tokens) hok hquiet
    rw [hend, List.append_nil] at hts
    refine ⟨?_, hw, hspan⟩
    rw [show bodyOf tokens = ts from hts]
    exact hp
  next e c _ =>
    rw [Cursor.report, Array.toList_push] at h
    exact absurd h (List.append_ne_nil_of_right_ne_nil _ (List.cons_ne_nil _ _))

/-- A program of the grammar is read without an error, as it stands. -/
theorem parse_complete {tokens : List Token} {ss : List Stmt} (firstId : NodeId)
    (h : Ebnf.Program true (bodyOf tokens) ss) (hw : Stmt.AllWithinArity ss) :
    (parse tokens firstId).errors = [] ∧
      Stmt.bareAll (parse tokens firstId).statements = Stmt.bareAll ss := by
  obtain ⟨ss', c, hok, -, herrors, new, hnew, hbare⟩ :=
    @yields_programFrom _ _ h (Cursor.ofTokens tokens firstId) [] rfl hw
  obtain rfl : ss' = new := hnew
  have hok : program (Cursor.ofTokens tokens firstId) = .ok ss' c := hok
  unfold parse
  rw [hok]
  exact ⟨Array.toList_eq_nil_iff.2 herrors, hbare⟩

/-- The parser reports nothing exactly if the tokens derive from `program` with no list of more than
255 arguments or parameters. Then its trees are those of the derivation in which each `else` goes to
the nearest open `if`, and there is no other such derivation. -/
theorem parse_exact (body : List Token) (eof : Token) (firstId : NodeId)
    (hbody : ∀ t ∈ body, t.isEof = false) (heof : eof.isEof = true) :
    ((parse (body ++ [eof]) firstId).errors = [] ↔
      ∃ ss, Ebnf.Program false body ss ∧ Stmt.AllWithinArity ss) ∧
    ((parse (body ++ [eof]) firstId).errors = [] →
      Ebnf.Program true body (parse (body ++ [eof]) firstId).statements ∧
      Stmt.AllWithinArity (parse (body ++ [eof]) firstId).statements ∧
      ∀ ss, Ebnf.Program true body ss → Stmt.AllWithinArity ss →
        Stmt.bareAll ss = Stmt.bareAll (parse (body ++ [eof]) firstId).statements) := by
  have hbodyOf := bodyOf_append hbody heof
  refine ⟨⟨fun h => ?_, fun h => ?_⟩, fun h => ?_⟩
  · obtain ⟨hp, hw, -⟩ := parse_sound h
    rw [hbodyOf] at hp
    exact ⟨_, Ebnf.loose_declarations hp, hw⟩
  · obtain ⟨ss, hss, hw⟩ := h
    obtain ⟨ss', hss', hw'⟩ := Ebnf.nearest_declarations hss hw
    exact (parse_complete firstId (hbodyOf.symm ▸ hss') hw').1
  · obtain ⟨hp, hw, -⟩ := parse_sound h
    rw [hbodyOf] at hp
    refine ⟨hp, hw, fun ss hss hwss => ?_⟩
    exact ((parse_complete firstId (hbodyOf.symm ▸ hss) hwss).2).symm

/-- `if (a) if (b) c; else d;` -/
def danglingElse : List Token :=
  let symbol (s : Symbol) : Token := ⟨.symbol s, s.text, 1⟩
  let name (text : String) : Token := .identifier text 1
  [symbol .kwIf, symbol .leftParen, name "a", symbol .rightParen,
   symbol .kwIf, symbol .leftParen, name "b", symbol .rightParen,
   name "c", symbol .semicolon, symbol .kwElse, name "d", symbol .semicolon]

/-- The `else` goes to the second `if`. -/
def danglingElseTree : Stmt :=
  let read (text : String) : Expr := .variable 0 (.identifier text 1)
  .cond (read "a") (.cond (read "b") (.expression (read "c")) (some (.expression (read "d")))) none

/-- A name by itself is an expression. -/
theorem assignment_of_name {t : Token} (h : t.isIdentifier = true) :
    Ebnf.Assignment [t] (.variable 0 t) :=
  .operation <| .operand <| .layer rfl <| .operand <| .layer rfl <| .operand <| .layer rfl <|
    .operand <| .layer rfl <| .operand <| .layer rfl <| .operand <| .unary rfl <| .call <|
    .primary <| .variable h

theorem program_danglingElse : Ebnf.Program true danglingElse [danglingElseTree] := by
  have part (text : String) : Ebnf.Statement true
      [Token.identifier text 1, ⟨.symbol .semicolon, ";", 1⟩]
      (.expression (.variable 0 (.identifier text 1))) false :=
    .expression (.intro (assignment_of_name rfl) rfl)
  have inner := @Ebnf.Statement.ifElse true ⟨.symbol .kwIf, "if", 1⟩ ⟨.symbol .leftParen, "(", 1⟩
    ⟨.symbol .rightParen, ")", 1⟩ ⟨.symbol .kwElse, "else", 1⟩ _ _ _ _ _ _ _ _ rfl rfl
    (assignment_of_name (t := .identifier "b" 1) rfl) rfl (part "c") (fun _ => rfl) rfl (part "d")
  have outer := @Ebnf.Statement.if true ⟨.symbol .kwIf, "if", 1⟩ ⟨.symbol .leftParen, "(", 1⟩
    ⟨.symbol .rightParen, ")", 1⟩ _ _ _ _ _ rfl rfl
    (assignment_of_name (t := .identifier "a" 1) rfl) rfl inner
  exact .cons (.statement outer) .nil

theorem parse_danglingElse :
    (∀ t ∈ danglingElse, t.isEof = false) ∧ (Token.eof 1).isEof = true ∧
      (parse (danglingElse ++ [.eof 1]) 0).errors = [] ∧
      [danglingElseTree] = Stmt.bareAll (parse (danglingElse ++ [.eof 1]) 0).statements := by
  have hbody : ∀ t ∈ danglingElse, t.isEof = false := by decide
  have hw : Stmt.AllWithinArity [danglingElseTree] := by
    simp [danglingElseTree, Stmt.AllWithinArity, Stmt.WithinArity, Expr.WithinArity]
  obtain ⟨hiff, htrees⟩ := parse_exact danglingElse (.eof 1) 0 hbody rfl
  have herrors := hiff.2 ⟨_, Ebnf.loose_declarations program_danglingElse, hw⟩
  exact ⟨hbody, rfl, herrors, (htrees herrors).2.2 _ program_danglingElse hw⟩

end Grammar

end Lox
