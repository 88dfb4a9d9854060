/-
Statements, declarations and programs that are left of tokens with syntax errors.
A declaration that fails leaves nothing of its tokens, and the ones around it go
on: what a list of tokens is read as is a program for some of its tokens, in
their order, and no two references in it have the same number.
-/
import Lox.Proofs.Grammar.Append
import Lox.Proofs.Grammar.Progress
import Lox.Proofs.Grammar.Salvage
import Lox.Proofs.Grammar.SoundStatement

namespace Lox.Grammar

open Rule

/-- What this keyword stands in front of. -/
def Behind {α : Type} (s : Symbol) (P : List Token → α → Prop) (us : List Token) (a : α) : Prop :=
  ∀ keyword : Token, keyword.is s = true → P (keyword :: us) a

/-- A statement that may end in an `if` without an `else`. -/
def Ebnf.SomeStatement (us : List Token) (s : Stmt) : Prop :=
  ∃ opens, Ebnf.Statement false us s opens

/-! ## Parts of statements -/

theorem salvages_expressionUnless (s : Symbol) : Salvages (expressionUnless s)
    (Derives Ebnf.OptionalExpression (optionalReferences Expr.references)) :=
  .sees fun _ => .ite (fun _ => .pure fun i => ⟨.none, .nil (Nat.le_refl i)⟩)
    fun _ => .last (salvages_expression.imp fun _ _ _ _ he => ⟨.some he.1, he.2⟩)

theorem salvages_expressionStatement :
    Salvages expressionStatement (Derives Ebnf.ExpressionStatement Stmt.references) :=
  .bind salvages_expression fun _ => .require fun _ => .pure fun _ hsemicolon _ _ he =>
    ⟨.intro he.1 hsemicolon, he.2⟩

theorem salvages_varDeclaration :
    Salvages varDeclaration (Derives (Behind .kwVar Ebnf.VarDeclaration) Stmt.references) := by
  refine .requireName fun name => .accept (fun equals => ?_) ?_
  · have hsome : Salvages (some <$> expression) fun i us e? j => ∃ e, e? = some e ∧
        Derives Ebnf.Assignment Expr.references i us e j :=
      .map (salvages_expression.imp fun _ _ e _ he => ⟨e, rfl, he⟩)
    refine .bind hsome fun init => .require fun semicolon => .pure ?_
    rintro j hsemicolon i us ⟨e, rfl, he⟩ hequals hname
    exact ⟨fun keyword hk => .initialized hk hname (by simpa using hequals) he.1 hsemicolon, he.2⟩
  · refine .bind (.pure (Q := fun i us e? j => e? = none ∧ us = [] ∧ i = j) fun i => ⟨rfl, rfl, rfl⟩)
      fun init => .require fun semicolon => .pure ?_
    rintro j hsemicolon i us ⟨rfl, rfl, rfl⟩ hname
    exact ⟨fun keyword hk => .plain hk hname hsemicolon, .nil (Nat.le_refl i)⟩

theorem salvages_forInitializer : Salvages forInitializer
    (Derives Ebnf.ForInitializer (optionalReferences Stmt.references)) := by
  refine .accept (fun t => .ite (fun ht => ?_) fun ht => ?_) ?_
  · exact .map (salvages_varDeclaration.imp fun _ _ _ _ hs _ => ⟨.variable (hs.1 t ht), hs.2⟩)
  · refine .pure fun i hany => ⟨.none ?_, .nil (Nat.le_refl i)⟩
    simpa [ht] using hany
  · exact .map (salvages_expressionStatement.imp fun _ _ _ _ hs => ⟨.expression hs.1, hs.2⟩)

theorem salvages_condition (place : Place) : Salvages (condition place)
    (Derives (fun us e => ∃ open' ts close, us = open' :: (ts ++ [close]) ∧
      open'.is .leftParen = true ∧ Ebnf.Assignment ts e ∧ close.is .rightParen = true)
        Expr.references) :=
  .require fun open' => .bind salvages_expression fun _ => .require fun close =>
    .pure fun _ hclose _ us he hopen => ⟨⟨open', us, close, rfl, hopen, he.1, hclose⟩, he.2⟩

section

variable {S : Rule Stmt} (hS : Salvages S (Derives Ebnf.SomeStatement Stmt.references))

include hS

theorem salvages_forStatement : Salvages (forStatement S)
    (Derives (Behind .kwFor Ebnf.SomeStatement) Stmt.references) := by
  refine .require fun open' => .bind salvages_forInitializer fun init =>
    .bind (salvages_expressionUnless _) fun test => .require fun semicolon =>
    .bind (salvages_expressionUnless _) fun step => .require fun close => .last (hS.imp ?_)
  intro k ds body l hbody hclose _ cs hstep hsemicolon _ bs htest i as hinit hopen
  obtain ⟨⟨opens, hbody⟩, hspan⟩ := hbody
  rw [forLoop_eq]
  refine ⟨fun keyword hk => ⟨opens, ?_⟩, ?_⟩
  · exact .for hk hopen hinit.1 htest.1 hsemicolon hstep.1 hclose hbody
  · rw [references_whileForm]
    exact hinit.2.append (htest.2.append (hstep.2.append_comm hspan))

theorem salvages_ifStatement : Salvages (ifStatement S)
    (Derives (Behind .kwIf Ebnf.SomeStatement) Stmt.references) := by
  refine .bind (salvages_condition _) fun test => .bind hS fun thenPart =>
    .accept (fun else' => .last (hS.imp ?_)) (.pure ?_)
  · intro k vs elsePart l helse his j us hthen i _ htest
    obtain ⟨⟨opens', helse⟩, hspan''⟩ := helse
    obtain ⟨⟨opens, hthen⟩, hspan'⟩ := hthen
    obtain ⟨⟨open', ts, close, rfl, hopen, htest, hclose⟩, hspan⟩ := htest
    refine ⟨fun keyword hk => ⟨opens', ?_⟩, ?_⟩
    · have := Ebnf.Statement.ifElse hk hopen htest hclose hthen (fun h => by cases h)
        (by simpa using his) helse
      simpa using this
    · rw [Stmt.references, List.append_assoc]
      exact hspan.append (hspan'.append hspan'')
  · intro j k us hthen i _ htest
    obtain ⟨⟨opens, hthen⟩, hspan'⟩ := hthen
    obtain ⟨⟨open', ts, close, rfl, hopen, htest, hclose⟩, hspan⟩ := htest
    refine ⟨fun keyword hk => ⟨true, ?_⟩, hspan.append hspan'⟩
    have := Ebnf.Statement.if hk hopen htest hclose hthen
    simpa using this

end

theorem salvages_parameters : Salvages parameters fun i us names j =>
    Ebnf.Parameters us names ∧ i = j := by
  refine .sees fun _ => .ite (fun _ => .pure fun i => ⟨.none, rfl⟩) fun _ => ?_
  refine .imp (.fix (Q := fun found i us names j => ∃ new, names = found.reverse ++ new ∧
    Ebnf.ParameterList us new ∧ i = j) (fun again hagain found => ?_) []) ?_
  · unfold parametersStep
    refine .limit (.requireName fun name => .accept (fun comma => ?_) (.pure fun i hname => ?_))
    · refine (hagain (name :: found)).imp ?_
      rintro i us names j ⟨new, rfl, hnew, rfl⟩ hcomma hname
      exact ⟨name :: new, by simp, .more hname (by simpa using hcomma) hnew, rfl⟩
    · exact ⟨[name], by simp, .last hname, rfl⟩
  · rintro i us names j ⟨new, rfl, hnew, rfl⟩
    exact ⟨.some hnew, rfl⟩

/-! ## Declarations -/

/-- What is left of a declaration: it is as stated, or it failed and nothing is left. -/
def Remains (i : NodeId) (us : List Token) (s? : Option Stmt) (j : NodeId) : Prop :=
  match s? with
  | some s => Derives (Ebnf.Declaration false) Stmt.references i us s j
  | none => us = [] ∧ i ≤ j

/-- A declaration goes in front of those that come behind it. -/
theorem Remains.cons {i j k : NodeId} {us vs : List Token} {s? : Option Stmt} {ss : List Stmt}
    (h : Remains i us s? j) (hs : Derives (Ebnf.Declarations false) Stmt.allReferences j vs ss k) :
    Derives (Ebnf.Declarations false) Stmt.allReferences i (us ++ vs) (s?.toList ++ ss) k := by
  cases s? with
  | none =>
    obtain ⟨rfl, hij⟩ := h
    exact ⟨hs.1, (Span.nil hij).append hs.2⟩
  | some s => exact ⟨.cons h.1 hs.1, h.2.append hs.2⟩

section

variable {D : Rule (Option Stmt)} (hD : Salvages D Remains)

include hD

theorem salvages_declarations : Salvages (declarations D)
    (Derives (Ebnf.Declarations false) Stmt.allReferences) := by
  refine .imp (.fix (Q := fun found i us ss j => ∃ new, ss = found.reverse ++ new ∧
    Derives (Ebnf.Declarations false) Stmt.allReferences i us new j)
      (fun again hagain found => ?_) []) ?_
  · refine .sees fun _ => .atEnd fun _ => .ite (fun _ => .pure fun i => ?_) fun _ => ?_
    · exact ⟨[], (List.append_nil _).symm, .nil, .nil (Nat.le_refl i)⟩
    · refine .bind hD fun s? => ?_
      cases s? with
      | none =>
        refine (hagain found).imp ?_
        rintro j us ss k ⟨new, rfl, hnew⟩ i vs hnone
        exact ⟨new, rfl, hnone.cons hnew⟩
      | some s =>
        refine (hagain (s :: found)).imp ?_
        rintro j us ss k ⟨new, rfl, hnew⟩ i vs hs
        exact ⟨s :: new, by simp, hs.cons hnew⟩
  · rintro i us ss j ⟨new, rfl, hnew⟩
    exact hnew

/-- A block behind its opening brace. -/
theorem salvages_block : Salvages (block D)
    (Derives (Behind .leftBrace (Ebnf.Block false)) Stmt.allReferences) :=
  .bind (salvages_declarations hD) fun _ => .require fun _ => .pure fun _ hclose _ _ hss =>
    ⟨fun _ ho => .intro ho hss.1 hclose, hss.2⟩

theorem salvages_statement : Salvages (statement D)
    (Derives Ebnf.SomeStatement Stmt.references) := by
  refine .fix (Q := fun _ => Derives Ebnf.SomeStatement Stmt.references)
    (fun again hagain _ => ?_) ()
  refine .accept (fun t => ?_)
    (salvages_expressionStatement.imp fun _ _ _ _ hs => ⟨⟨false, .expression hs.1⟩, hs.2⟩)
  dsimp only
  split
  next hk =>
    exact (salvages_forStatement (hagain ())).imp fun i us s j hs _ =>
      ⟨hs.1 t (Token.is_iff.2 hk), hs.2⟩
  next hk =>
    exact (salvages_ifStatement (hagain ())).imp fun i us s j hs _ =>
      ⟨hs.1 t (Token.is_iff.2 hk), hs.2⟩
  next hk =>
    refine .bind (salvages_condition _) fun test => .last ((hagain ()).imp ?_)
    intro j us body k hbody i _ htest _
    obtain ⟨⟨opens, hbody⟩, hspan'⟩ := hbody
    obtain ⟨⟨open', ts, close, rfl, hopen, htest, hclose⟩, hspan⟩ := htest
    refine ⟨⟨opens, ?_⟩, hspan.append hspan'⟩
    have := Ebnf.Statement.while (Token.is_iff.2 hk) hopen htest hclose hbody
    simpa using this
  next hk =>
    refine .bind (salvages_expressionUnless _) fun e? => .require fun semicolon =>
      .pure fun j hsemicolon i us he _ => ⟨⟨false, .return (Token.is_iff.2 hk) he.1 hsemicolon⟩, ?_⟩
    cases e? with
    | none => exact he.2
    | some e => exact he.2
  next hk =>
    exact .last ((salvages_block hD).imp fun i us ss j hss _ =>
      ⟨⟨false, .block (hss.1 t (Token.is_iff.2 hk))⟩, hss.2⟩)
  next hfor hif hwhile hreturn hbrace =>
    refine .bind salvages_expression fun e => .require fun semicolon =>
      .pure fun j hsemicolon i us he hany => ⟨⟨false, .print ?_ he.1 hsemicolon⟩, he.2⟩
    simp only [statementStarts, List.any_cons, List.any_nil, Bool.or_eq_true, Token.is_iff] at hany
    rw [Token.is_iff]
    simp_all

theorem salvages_function (sort : FunctionSort) : Salvages (function sort D)
    (Derives (Ebnf.Function false) FunctionDecl.references) := by
  refine .requireName fun name => .require fun open' => .bind salvages_parameters fun params =>
    .require fun close => .require fun brace => .last ((salvages_block hD).imp ?_)
  rintro j us body k hbody hbrace hclose i ts ⟨hparams, rfl⟩ hopen hname
  exact ⟨.intro hname hopen hparams hclose (hbody.1 brace hbrace), hbody.2⟩

theorem salvages_methods : Salvages (methods D)
    (Derives (Ebnf.Methods false) FunctionDecl.allReferences) := by
  refine .imp (.fix (Q := fun found i us ds j => ∃ new, ds = found.reverse ++ new ∧
    Derives (Ebnf.Methods false) FunctionDecl.allReferences i us new j)
      (fun again hagain found => ?_) []) ?_
  · refine .sees fun _ => .atEnd fun _ => .ite (fun _ => .pure fun i => ?_) fun _ => ?_
    · exact ⟨[], (List.append_nil _).symm, .nil, .nil (Nat.le_refl i)⟩
    · refine .bind (salvages_function hD .method) fun d => (hagain (d :: found)).imp ?_
      rintro j us ds k ⟨new, rfl, hnew⟩ i vs hd
      exact ⟨d :: new, by simp, .cons hd.1 hnew.1, hd.2.append hnew.2⟩
  · rintro i us ds j ⟨new, rfl, hnew⟩
    exact hnew

theorem salvages_classDeclaration : Salvages (classDeclaration D)
    (Derives (Behind .kwClass (Ebnf.Declaration false)) Stmt.references) :=
  .requireName fun _ => .require fun _ => .bind (salvages_methods hD) fun _ => .require fun _ =>
    .pure fun _ hclose _ _ hds hopen hname => ⟨fun _ hk => .class hk hname hopen hds.1 hclose, hds.2⟩

theorem salvages_declared : Salvages (declared D)
    (Derives (Ebnf.Declaration false) Stmt.references) := by
  refine .accept (fun t => ?_) ((salvages_statement hD).imp ?_)
  · dsimp only
    split
    next hk =>
      exact (salvages_classDeclaration hD).imp fun i us s j hs _ =>
        ⟨hs.1 t (Token.is_iff.2 hk), hs.2⟩
    next hk =>
      exact .last ((salvages_function hD .function).imp fun i us d j hd _ =>
        ⟨.function (Token.is_iff.2 hk) hd.1, hd.2⟩)
    next hclass hfun =>
      refine salvages_varDeclaration.imp fun i us s j hs hany => ⟨.variable (hs.1 t ?_), hs.2⟩
      simp only [List.any_cons, List.any_nil, Bool.or_eq_true, Token.is_iff] at hany
      rw [Token.is_iff]
      simp_all
  · rintro i us s j ⟨⟨opens, hs⟩, hspan⟩
    exact ⟨.statement hs, hspan⟩

end

/-- What is left of a declaration is one of the grammar for some of its tokens. -/
theorem salvages_declaration : Salvages declaration Remains := by
  refine .fix (Q := fun _ => Remains) (fun again hagain _ => ?_) ()
  refine .recover (.map (salvages_declared (hagain ()))) fun e c => ⟨?_, ?_⟩
  · exact (c.onward_report e).trans (c.report e).onward_synchronize
  · intro s? c' hr i hi
    cases hr
    exact ⟨rfl, hi⟩

/-! ## Programs -/

theorem salvages_program : Salvages program
    (Derives (Ebnf.Program false) Stmt.allReferences) := by
  refine .imp (.fix (Q := fun found i us ss j => ∃ new, ss = found.reverse ++ new ∧
    Derives (Ebnf.Program false) Stmt.allReferences i us new j)
      (fun again hagain found => ?_) []) ?_
  · refine .atEnd fun _ => .ite (fun _ => .pure fun i => ?_) fun _ => ?_
    · exact ⟨[], (List.append_nil _).symm, .nil, .nil (Nat.le_refl i)⟩
    · refine .bind salvages_declaration fun s? => ?_
      cases s? with
      | none =>
        refine (hagain found).imp ?_
        rintro j us ss k ⟨new, rfl, hnew⟩ i vs hnone
        exact ⟨new, rfl, hnone.cons hnew⟩
      | some s =>
        refine (hagain (s :: found)).imp ?_
        rintro j us ss k ⟨new, rfl, hnew⟩ i vs hs
        exact ⟨s :: new, by simp, hs.cons hnew⟩
  · rintro i us ss j ⟨new, rfl, hnew⟩
    exact hnew

/-- What a list of tokens is read as is a program for some of the tokens in front of its end, and
its references have numbers of their own. -/
theorem parse_salvages (tokens : List Token) (firstId : NodeId) :
    ∃ us, us.Sublist (bodyOf tokens) ∧
      Ebnf.Program false us (parse tokens firstId).statements ∧
      Span firstId (parse tokens firstId).nextId
        (Stmt.allReferences (parse tokens firstId).statements) := by
  obtain ⟨ss, d, hss, -, hend⟩ :=
    programFrom_ends (c := .ofTokens tokens firstId) (isEof_endOf tokens) []
  obtain ⟨ts, us, hts, hus, hprogram, hspan⟩ := salvages_program.keeps (isEof_endOf tokens) hss
  have hbody : bodyOf tokens = ts := by
    rw [hend, List.append_nil] at hts
    exact hts
  rw [parse_of_ok hss, hbody]
  exact ⟨us, hus, hprogram, hspan⟩

end Lox.Grammar
