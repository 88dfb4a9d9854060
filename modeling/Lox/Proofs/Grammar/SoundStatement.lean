/-
Statements, declarations and programs that are read without a report are in the
grammar. A statement that ends in an open `if` is not followed by an `else`, so
the `else` of an `if` is never behind such a statement.
-/
import Lox.Proofs.Grammar.Soundness

namespace Lox.Grammar

open Rule

/-- Statements of this production. -/
def ReadsStmt (P : List Token → Stmt → Prop) : Cursor → Stmt → Cursor → Prop :=
  Reads (fun ts s => P ts s ∧ s.WithinArity) Stmt.references

/-- The next token is no `else`. -/
def NoElse (c : Cursor) : Prop := ∀ t rest, c.rest = t :: rest → t.is .kwElse = false

/-- A statement behind these tokens. -/
def ReadsStatement (P : List Token → Stmt → Bool → Prop) (c : Cursor) (s : Stmt) (c' : Cursor) :
    Prop :=
  ∃ opens, ReadsStmt (fun ts s => P ts s opens) c s c' ∧ (opens = true → NoElse c')

/-! ## Parts of statements -/

/-- The references of a part that may be missing. -/
def optionalReferences {α : Type} (refs : α → List Reference) : Option α → List Reference
  | none => []
  | some a => refs a

/-- A rule whose result is there. -/
theorem sound_some {α : Type} {rule : Rule α} {Q : Cursor → α → Cursor → Prop} (h : Sound rule Q) :
    Sound (some <$> rule) fun c a? c' => ∃ a, a? = some a ∧ Q c a c' :=
  .map (h.weaken fun _ a _ hq => ⟨a, rfl, hq⟩)

theorem sound_expressionUnless (s : Symbol) : Sound (expressionUnless s)
    (Reads (fun ts e? => Ebnf.OptionalExpression ts e? ∧ Ebnf.Optional Expr.WithinArity e?)
      (optionalReferences Expr.references)) := by
  refine .bind (.sees s) fun b => .ite (fun _ => .pure fun c c₀ h₀ => ?_) fun _ => ?_
  · rw [h₀.2]
    exact ⟨⟨[], rfl, .none, trivial⟩, .nil (Nat.le_refl _)⟩
  · refine .bind sound_expression fun e => .pure fun c' c h c₀ h₀ => ?_
    obtain ⟨⟨ts, hts, he, hw⟩, hspan⟩ := h
    obtain ⟨-, rfl⟩ := h₀
    exact ⟨⟨ts, hts, .some he, hw⟩, hspan⟩

theorem sound_expressionStatement :
    Sound expressionStatement (ReadsStmt Ebnf.ExpressionStatement) := by
  refine .bind sound_expression fun e => .bind (.require _ _) fun semicolon =>
    .pure fun c₂ c₁ h₁ c h => ?_
  obtain ⟨⟨ts, hts, he, hw⟩, hspan⟩ := h
  refine ⟨⟨ts ++ [semicolon], ?_, .intro he h₁.2, hw⟩, ?_⟩
  · rw [hts, h₁.1.1]
    simp
  · rw [h₁.1.2]
    exact hspan

theorem sound_varDeclaration : Sound varDeclaration (ReadsStmt fun ts s =>
    ∀ keyword : Token, keyword.is .kwVar = true → Ebnf.VarDeclaration (keyword :: ts) s) := by
  refine .bind (.requireName _) fun name => .bind (.accept? _) fun equals? => ?_
  cases equals? with
  | none =>
    refine .bind (.pure (Q := fun c e? c' => e? = none ∧ c' = c) fun _ => ⟨rfl, rfl⟩) fun init =>
      .bind (.require _ _) fun semicolon => .pure fun c₄ c₃ h₃ c₂ h₂ c₁ h₁ c h => ?_
    obtain ⟨rfl, rfl⟩ := h₂
    obtain ⟨rfl, -⟩ := h₁
    refine ⟨⟨[name, semicolon], ?_, fun keyword hk => .plain hk h.2 h₃.2, trivial⟩, .nil ?_⟩
    · exact h.1.1.trans (congrArg (name :: ·) h₃.1.1)
    · exact Nat.le_of_eq (h.1.2.symm.trans h₃.1.2.symm)
  | some equals =>
    refine .bind (sound_some sound_expression) fun init => .bind (.require _ _) fun semicolon =>
      .pure fun c₄ c₃ h₃ c₂ h₂ c₁ h₁ c h => ?_
    obtain ⟨e, rfl, ⟨ts, hts, he, hw⟩, hspan⟩ := h₂
    refine ⟨⟨name :: equals :: (ts ++ [semicolon]), ?_, fun keyword hk =>
      .initialized hk h.2 (by simpa using h₁.2) he h₃.2, hw⟩, ?_⟩
    · rw [h.1.1, h₁.1.1, hts, h₃.1.1]
      simp
    · rw [h₃.1.2, ← h.1.2, ← h₁.1.2]
      exact hspan

theorem sound_forInitializer : Sound forInitializer
    (Reads (fun ts s? => Ebnf.ForInitializer ts s? ∧ Ebnf.Optional Stmt.WithinArity s?)
      (optionalReferences Stmt.references)) := by
  refine .bind (.accept? _) fun t? => ?_
  cases t? with
  | none =>
    refine (sound_some sound_expressionStatement).weaken fun c s? c' h c₀ h₀ => ?_
    obtain ⟨s, rfl, ⟨ts, hts, hs, hw⟩, hspan⟩ := h
    obtain ⟨rfl, -⟩ := h₀
    exact ⟨⟨ts, hts, .expression hs, hw⟩, hspan⟩
  | some t =>
    refine .ite (fun ht => ?_) fun ht => .pure fun c c₀ h₀ => ?_
    · refine (sound_some sound_varDeclaration).weaken fun c s? c' h c₀ h₀ => ?_
      obtain ⟨s, rfl, ⟨ts, hts, hs, hw⟩, hspan⟩ := h
      refine ⟨⟨t :: ts, ?_, .variable (hs t ht), hw⟩, ?_⟩
      · rw [h₀.1.1, hts]
        rfl
      · rw [← h₀.1.2]
        exact hspan
    · have hsemicolon : t.is .semicolon = true := by simpa [ht] using h₀.2
      exact ⟨⟨[t], h₀.1.1, .none hsemicolon, trivial⟩, .nil (Nat.le_of_eq h₀.1.2.symm)⟩

theorem forLoop_eq (init : Option Stmt) (test step : Option Expr) (body : Stmt) :
    forLoop init test step body = Ebnf.whileForm init test step body := by
  cases init <;> cases test <;> cases step <;> rfl

/-- The increment of a loop is read before its body and stands behind it. -/
theorem references_whileForm (init : Option Stmt) (test step : Option Expr) (body : Stmt) :
    (Ebnf.whileForm init test step body).references =
      optionalReferences Stmt.references init ++ (optionalReferences Expr.references test ++
        (body.references ++ optionalReferences Expr.references step)) := by
  cases init <;> cases test <;> cases step <;>
    simp [Ebnf.whileForm, Ebnf.withInitializer, Ebnf.whileTrue, Ebnf.withIncrement,
      optionalReferences, Stmt.references, Stmt.allReferences, Expr.references]

section

variable {S : Rule Stmt} (hS : Sound S (ReadsStatement (Ebnf.Statement true)))

/-- A statement behind this keyword. -/
def Ebnf.Statement.Behind (s : Symbol) (ts : List Token) (stmt : Stmt) (opens : Bool) : Prop :=
  ∀ keyword : Token, keyword.is s = true → Ebnf.Statement true (keyword :: ts) stmt opens

include hS in
theorem sound_forStatement :
    Sound (forStatement S) (ReadsStatement (Ebnf.Statement.Behind .kwFor)) := by
  refine .bind (.require _ _) fun open' => .bind sound_forInitializer fun init =>
    .bind (sound_expressionUnless _) fun test => .bind (.require _ _) fun semicolon =>
    .bind (sound_expressionUnless _) fun step => .bind (.require _ _) fun close =>
    .bind hS fun body => .pure fun c c₆ h₆ c₅ h₅ c₄ h₄ c₃ h₃ c₂ h₂ c₁ h₁ c₀ h₀ => ?_
  obtain ⟨opens, ⟨⟨ds, hds, hbody, hwb⟩, hspanb⟩, hnext⟩ := h₆
  obtain ⟨⟨cs, hcs, hstep, hws⟩, hspans⟩ := h₄
  obtain ⟨⟨bs, hbs, htest, hwt⟩, hspant⟩ := h₂
  obtain ⟨⟨as, has, hinit, hwi⟩, hspani⟩ := h₁
  refine ⟨opens, ⟨⟨open' :: (as ++ (bs ++ semicolon :: (cs ++ close :: ds))), ?_, ?_, ?_⟩, ?_⟩, hnext⟩
  · rw [h₀.1.1, has, hbs, h₃.1.1, hcs, h₅.1.1, hds]
    simp
  · rw [forLoop_eq]
    exact fun keyword hk => .for hk h₀.2 hinit htest h₃.2 hstep h₅.2 hbody
  · rw [forLoop_eq]
    exact Ebnf.withinArity_whileForm.2 ⟨hwi, hwt, hws, hwb⟩
  · rw [forLoop_eq, references_whileForm, ← h₀.1.2]
    rw [h₅.1.2] at hspanb
    rw [h₃.1.2] at hspans
    exact hspani.append (hspant.append (hspans.append_comm hspanb))

/-- A condition in parentheses. -/
theorem sound_condition (place : Place) : Sound (condition place)
    (Reads (fun ts e => (∃ open' us close, ts = open' :: (us ++ [close]) ∧
      open'.is .leftParen = true ∧ Ebnf.Assignment us e ∧ close.is .rightParen = true) ∧
        e.WithinArity) Expr.references) := by
  refine .bind (.require _ _) fun open' => .bind sound_expression fun e =>
    .bind (.require _ _) fun close => .pure fun c₃ c₂ h₂ c₁ h₁ c h => ?_
  obtain ⟨⟨ts, hts, he, hw⟩, hspan⟩ := h₁
  refine ⟨⟨open' :: (ts ++ [close]), ?_, ⟨open', ts, close, rfl, h.2, he, h₂.2⟩, hw⟩, ?_⟩
  · rw [h.1.1, hts, h₂.1.1]
    simp
  · rw [h₂.1.2, ← h.1.2]
    exact hspan

include hS in
theorem sound_ifStatement :
    Sound (ifStatement S) (ReadsStatement (Ebnf.Statement.Behind .kwIf)) := by
  refine .bind (sound_condition _) fun test => .bind hS fun thenPart =>
    .bind (.accept? _) fun else? => ?_
  cases else? with
  | none =>
    refine .pure fun c₃ c₂ h₂ c₁ h₁ c h => ?_
    obtain ⟨⟨_, hts, ⟨open', ts, close, rfl, hopen, htest, hclose⟩, hwt⟩, hspan⟩ := h
    obtain ⟨opens, ⟨⟨us, hus, hthen, hw⟩, hspan'⟩, -⟩ := h₁
    obtain ⟨rfl, hnone⟩ := h₂
    refine ⟨true, ⟨⟨open' :: (ts ++ close :: us), ?_, ?_, hwt, hw⟩, hspan.append hspan'⟩, ?_⟩
    · rw [hts, hus]
      simp
    · exact fun keyword hk => .if hk hopen htest hclose hthen
    · exact fun _ t rest ht => by simpa using hnone t rest ht
  | some else' =>
    refine .bind hS fun elsePart => .pure fun c₄ c₃ h₃ c₂ h₂ c₁ h₁ c h => ?_
    obtain ⟨⟨_, hts, ⟨open', ts, close, rfl, hopen, htest, hclose⟩, hwt⟩, hspan⟩ := h
    obtain ⟨opens, ⟨⟨us, hus, hthen, hw⟩, hspan'⟩, hnext⟩ := h₁
    obtain ⟨opens', ⟨⟨vs, hvs, helse, hw'⟩, hspan''⟩, hnext'⟩ := h₃
    have his : else'.is .kwElse = true := by simpa using h₂.2
    -- An `else` was read, so the statement before it did not end in an open `if`.
    have hclosed : opens = false := by
      by_contra ho
      have := hnext (by simpa using ho) else' _ h₂.1.1
      rw [his] at this
      cases this
    refine ⟨opens', ⟨⟨open' :: (ts ++ close :: (us ++ else' :: vs)), ?_, ?_, hwt, hw, hw'⟩, ?_⟩,
      hnext'⟩
    · rw [hts, hus, h₂.1.1, hvs]
      simp
    · exact fun keyword hk =>
        .ifElse hk hopen htest hclose hthen (fun _ => hclosed) his helse
    · rw [h₂.1.2] at hspan''
      rw [Stmt.references, List.append_assoc]
      exact hspan.append (hspan'.append hspan'')

end

/-! ## Declarations -/

section

variable {D : Rule (Option Stmt)}
  (hD : Sound D fun c s? c' => ∃ s, s? = some s ∧ ReadsStmt (Ebnf.Declaration true) c s c')

include hD in
theorem sound_declarations : Sound (declarations D)
    (Reads (fun ts ss => Ebnf.Declarations true ts ss ∧ Stmt.AllWithinArity ss)
      Stmt.allReferences) := by
  refine Sound.weaken (.fix (Q := fun found c ss c' => ∃ new, ss = found.reverse ++ new ∧
    Reads (fun ts ss => Ebnf.Declarations true ts ss ∧ Stmt.AllWithinArity ss)
      Stmt.allReferences c new c') (fun again hagain found => ?_) []) ?_
  · refine .bind (.sees _) fun _ => .bind .atEnd fun _ => .ite (fun _ => ?_) fun _ => ?_
    · refine .pure fun c c₁ h₁ c₀ h₀ => ⟨[], (List.append_nil _).symm, ?_⟩
      rw [h₁.2, h₀.2]
      exact ⟨⟨[], rfl, .nil, trivial⟩, .nil (Nat.le_refl _)⟩
    · refine .bind hD fun s? => ?_
      cases s? with
      | none =>
        refine (hagain _).weaken fun c₃ ss c₄ h₃ c₂ h₂ => ?_
        obtain ⟨s, hs, -⟩ := h₂
        cases hs
      | some s =>
        refine (hagain _).weaken fun c₃ ss c₄ h₃ c₂ h₂ c₁ h₁ c₀ h₀ => ?_
        obtain ⟨_, hs, ⟨ts, hts, hdecl, hw⟩, hspan⟩ := h₂
        cases hs
        obtain ⟨new, rfl, ⟨us, hus, hnew, hws⟩, hspans⟩ := h₃
        rw [h₁.2, h₀.2] at hts hspan
        refine ⟨s :: new, by simp, ⟨ts ++ us, ?_, .cons hdecl hnew, hw, hws⟩, hspan.append hspans⟩
        rw [hts, hus, List.append_assoc]
  · rintro c ss c' ⟨new, rfl, h⟩
    exact h

include hD in
/-- A block behind its opening brace. -/
theorem sound_block : Sound (block D) (Reads (fun ts ss => (∀ open' : Token,
    open'.is .leftBrace = true → Ebnf.Block true (open' :: ts) ss) ∧ Stmt.AllWithinArity ss)
      Stmt.allReferences) := by
  refine .bind (sound_declarations hD) fun ss => .bind (.require _ _) fun close =>
    .pure fun c₂ c₁ h₁ c h => ?_
  obtain ⟨⟨ts, hts, hss, hw⟩, hspan⟩ := h
  refine ⟨⟨ts ++ [close], ?_, fun open' ho => .intro ho hss h₁.2, hw⟩, ?_⟩
  · rw [hts, h₁.1.1]
    simp
  · rw [h₁.1.2]
    exact hspan

/-- A statement that does not end in an open `if` may be followed by anything. -/
theorem ReadsStatement.closed {P : List Token → Stmt → Bool → Prop} {c c' : Cursor} {s : Stmt}
    (h : ReadsStmt (fun ts s => P ts s false) c s c') : ReadsStatement P c s c' :=
  ⟨false, h, fun h => by cases h⟩

/-- The keyword in front of a statement. -/
theorem ReadsStatement.keyword {sym : Symbol} {c c' c'' : Cursor} {t : Token} {s : Stmt}
    (h : ReadsStatement (Ebnf.Statement.Behind sym) c' s c'') (ht : Took c t c')
    (his : t.is sym = true) : ReadsStatement (Ebnf.Statement true) c s c'' := by
  obtain ⟨opens, ⟨⟨ts, hts, hs, hw⟩, hspan⟩, hnext⟩ := h
  refine ⟨opens, ⟨⟨t :: ts, ?_, hs t his, hw⟩, ht.2 ▸ hspan⟩, hnext⟩
  rw [ht.1, hts]
  rfl

include hD in
theorem sound_statement : Sound (statement D) (ReadsStatement (Ebnf.Statement true)) := by
  refine .fix (Q := fun _ => ReadsStatement (Ebnf.Statement true)) (fun again hagain _ => ?_) ()
  refine .bind (.accept? _) fun t? => ?_
  cases t? with
  | none =>
    refine sound_expressionStatement.weaken fun c s c' h c₀ h₀ => ?_
    obtain ⟨rfl, -⟩ := h₀
    obtain ⟨⟨ts, hts, hs, hw⟩, hspan⟩ := h
    exact .closed ⟨⟨ts, hts, .expression hs, hw⟩, hspan⟩
  | some t =>
    dsimp only
    split
    next hk =>
      exact (sound_forStatement (hagain ())).weaken fun c s c' h c₀ h₀ =>
        h.keyword h₀.1 (Token.is_iff.2 hk)
    next hk =>
      exact (sound_ifStatement (hagain ())).weaken fun c s c' h c₀ h₀ =>
        h.keyword h₀.1 (Token.is_iff.2 hk)
    next hk =>
      refine .bind (sound_condition _) fun test => .bind (hagain ()) fun body =>
        .pure fun c₂ c₁ h₁ c h c₀ h₀ => ?_
      obtain ⟨⟨_, hts, ⟨open', ts, close, rfl, hopen, htest, hclose⟩, hwt⟩, hspan⟩ := h
      obtain ⟨opens, ⟨⟨us, hus, hbody, hw⟩, hspan'⟩, hnext⟩ := h₁
      refine ⟨opens, ⟨⟨t :: open' :: (ts ++ close :: us), ?_, .while (Token.is_iff.2 hk) hopen htest
        hclose hbody, hwt, hw⟩, ?_⟩, hnext⟩
      · rw [h₀.1.1, hts, hus]
        simp
      · rw [h₀.1.2] at hspan
        exact hspan.append hspan'
    next hk =>
      refine .bind (sound_expressionUnless _) fun e? => .bind (.require _ _) fun semicolon =>
        .pure fun c₂ c₁ h₁ c h c₀ h₀ => .closed ?_
      obtain ⟨⟨ts, hts, he, hw⟩, hspan⟩ := h
      refine ⟨⟨t :: (ts ++ [semicolon]), ?_, .return (Token.is_iff.2 hk) he h₁.2, ?_⟩, ?_⟩
      · rw [h₀.1.1, hts, h₁.1.1]
        simp
      · cases e? with
        | none => trivial
        | some e => exact hw
      · rw [h₁.1.2, ← h₀.1.2]
        cases e? with
        | none => exact hspan
        | some e => exact hspan
    next hk =>
      refine .bind (sound_block hD) fun ss => .pure fun c₁ c h c₀ h₀ => .closed ?_
      obtain ⟨⟨ts, hts, hss, hw⟩, hspan⟩ := h
      refine ⟨⟨t :: ts, ?_, .block (hss t (Token.is_iff.2 hk)), hw⟩, ?_⟩
      · rw [h₀.1.1, hts]
        rfl
      · rw [← h₀.1.2]
        exact hspan
    next hfor hif hwhile hreturn hbrace =>
      refine .bind sound_expression fun e => .bind (.require _ _) fun semicolon =>
        .pure fun c₂ c₁ h₁ c h c₀ h₀ => .closed ?_
      obtain ⟨⟨ts, hts, he, hw⟩, hspan⟩ := h
      have hprint : t.is .kwPrint = true := by
        have := h₀.2
        simp only [statementStarts, List.any_cons, List.any_nil, Bool.or_eq_true, Token.is_iff] at this
        rw [Token.is_iff]
        simp_all
      refine ⟨⟨t :: (ts ++ [semicolon]), ?_, .print hprint he h₁.2, hw⟩, ?_⟩
      · rw [h₀.1.1, hts, h₁.1.1]
        simp
      · rw [h₁.1.2, ← h₀.1.2]
        exact hspan

theorem sound_parameters : Sound parameters fun c names c' =>
    (∃ ts, c.rest = ts ++ c'.rest ∧ Ebnf.Parameters ts names) ∧ names.length ≤ 255 ∧
      c'.nextId = c.nextId := by
  refine .bind (.sees _) fun b => .ite (fun hb => .pure fun c c₀ h₀ => ?_) fun hb => ?_
  · obtain ⟨rfl, rfl⟩ := h₀
    exact ⟨⟨[], rfl, .none⟩, Nat.zero_le _, rfl⟩
  · refine Sound.weaken (.fix (Q := fun found c names c' => ∃ new, names = found.reverse ++ new ∧
      found.length + new.length ≤ 255 ∧ (∃ ts, c.rest = ts ++ c'.rest ∧ Ebnf.ParameterList ts new) ∧
        c'.nextId = c.nextId) (fun again hagain found => ?_) []) ?_
    · unfold parametersStep
      refine .limit fun _ => .bind (.requireName _) fun name => .bind (.accept? _) fun comma? => ?_
      cases comma? with
      | some comma =>
        refine (hagain (name :: found)).weaken fun c₂ es c₃ h₂ c₁ h₁ c h hlt => ?_
        obtain ⟨new, rfl, hlength, ⟨ts, hts, hnew⟩, hid⟩ := h₂
        refine ⟨name :: new, by simp, ?_, ⟨name :: comma :: ts, ?_, ?_⟩, ?_⟩
        · rw [List.length_cons] at hlength ⊢
          omega
        · rw [h.1.1, h₁.1.1, hts]
          rfl
        · exact .more h.2 (by simpa using h₁.2) hnew
        · rw [hid, h₁.1.2, h.1.2]
      | none =>
        refine .pure fun c₁ c h₁ c₀ h₀ hlt => ?_
        rw [h₁.1]
        exact ⟨[name], by simp, hlt, ⟨[name], h₀.1.1, .last h₀.2⟩, h₀.1.2⟩
    · rintro c es c' ⟨new, rfl, hlength, ⟨ts, hts, hnew⟩, hid⟩ c₀ ⟨-, rfl⟩
      exact ⟨⟨ts, hts, .some hnew⟩, by simpa using hlength, hid⟩

include hD in
theorem sound_function (sort : FunctionSort) : Sound (function sort D)
    (Reads (fun ts d => Ebnf.Function true ts d ∧ d.WithinArity) FunctionDecl.references) := by
  refine .bind (.requireName _) fun name => .bind (.require _ _) fun open' =>
    .bind sound_parameters fun params => .bind (.require _ _) fun close =>
    .bind (.require _ _) fun brace => .bind (sound_block hD) fun body =>
    .pure fun c₆ c₅ h₅ c₄ h₄ c₃ h₃ c₂ h₂ c₁ h₁ c h => ?_
  obtain ⟨⟨ts, hts, hparams⟩, hlength, hid⟩ := h₂
  obtain ⟨⟨us, hus, hbody, hw⟩, hspan⟩ := h₅
  refine ⟨⟨name :: open' :: (ts ++ close :: brace :: us), ?_, .intro h.2 h₁.2 hparams h₃.2
    (hbody brace h₄.2), hlength, hw⟩, ?_⟩
  · rw [h.1.1, h₁.1.1, hts, h₃.1.1, h₄.1.1, hus]
    simp
  · rw [← h.1.2, ← h₁.1.2, ← hid, ← h₃.1.2, ← h₄.1.2]
    exact hspan

include hD in
theorem sound_methods : Sound (methods D)
    (Reads (fun ts ds => Ebnf.Methods true ts ds ∧ FunctionDecl.AllWithinArity ds)
      FunctionDecl.allReferences) := by
  refine Sound.weaken (.fix (Q := fun found c ds c' => ∃ new, ds = found.reverse ++ new ∧
    Reads (fun ts ds => Ebnf.Methods true ts ds ∧ FunctionDecl.AllWithinArity ds)
      FunctionDecl.allReferences c new c') (fun again hagain found => ?_) []) ?_
  · refine .bind (.sees _) fun _ => .bind .atEnd fun _ => .ite (fun _ => ?_) fun _ => ?_
    · refine .pure fun c c₁ h₁ c₀ h₀ => ⟨[], (List.append_nil _).symm, ?_⟩
      rw [h₁.2, h₀.2]
      exact ⟨⟨[], rfl, .nil, trivial⟩, .nil (Nat.le_refl _)⟩
    · refine .bind (sound_function hD .method) fun d =>
        (hagain _).weaken fun c₃ ss c₄ h₃ c₂ h₂ c₁ h₁ c₀ h₀ => ?_
      obtain ⟨⟨ts, hts, hdecl, hw⟩, hspan⟩ := h₂
      obtain ⟨new, rfl, ⟨us, hus, hnew, hws⟩, hspans⟩ := h₃
      rw [h₁.2, h₀.2] at hts hspan
      refine ⟨d :: new, by simp, ⟨ts ++ us, ?_, .cons hdecl hnew, hw, hws⟩, hspan.append hspans⟩
      rw [hts, hus, List.append_assoc]
  · rintro c ss c' ⟨new, rfl, h⟩
    exact h

include hD in
theorem sound_classDeclaration : Sound (classDeclaration D) (ReadsStmt fun ts s =>
    ∀ keyword : Token, keyword.is .kwClass = true → Ebnf.Declaration true (keyword :: ts) s) := by
  refine .bind (.requireName _) fun name => .bind (.require _ _) fun open' =>
    .bind (sound_methods hD) fun ds => .bind (.require _ _) fun close =>
    .pure fun c₄ c₃ h₃ c₂ h₂ c₁ h₁ c h => ?_
  obtain ⟨⟨ts, hts, hmethods, hw⟩, hspan⟩ := h₂
  refine ⟨⟨name :: open' :: (ts ++ [close]), ?_, fun keyword hk =>
    .class hk h.2 h₁.2 hmethods h₃.2, hw⟩, ?_⟩
  · rw [h.1.1, h₁.1.1, hts, h₃.1.1]
    simp
  · rw [h₃.1.2, ← h.1.2, ← h₁.1.2]
    exact hspan

include hD in
theorem sound_declared : Sound (declared D) (ReadsStmt (Ebnf.Declaration true)) := by
  refine .bind (.accept? _) fun t? => ?_
  cases t? with
  | none =>
    refine (sound_statement hD).weaken fun c s c' h c₀ h₀ => ?_
    obtain ⟨rfl, -⟩ := h₀
    obtain ⟨opens, ⟨⟨ts, hts, hs, hw⟩, hspan⟩, -⟩ := h
    exact ⟨⟨ts, hts, .statement hs, hw⟩, hspan⟩
  | some t =>
    -- All that follows goes on behind the token.
    have behind {P : List Token → Stmt → Prop} {c c' c'' : Cursor} {s : Stmt} (ht : Took c t c')
        (h : ReadsStmt P c' s c'') (hP : ∀ ts, P ts s → Ebnf.Declaration true (t :: ts) s) :
        ReadsStmt (Ebnf.Declaration true) c s c'' := by
      obtain ⟨⟨ts, hts, hs, hw⟩, hspan⟩ := h
      refine ⟨⟨t :: ts, ?_, hP ts hs, hw⟩, ht.2 ▸ hspan⟩
      rw [ht.1, hts]
      rfl
    dsimp only
    split
    next hk =>
      exact (sound_classDeclaration hD).weaken fun c s c' h c₀ h₀ =>
        behind h₀.1 h fun ts hts => hts t (Token.is_iff.2 hk)
    next hk =>
      refine .bind (sound_function hD _) fun d => .pure fun c₁ c h c₀ h₀ => ?_
      obtain ⟨⟨ts, hts, hd, hw⟩, hspan⟩ := h
      exact behind (P := fun ts _ => Ebnf.Function true ts d) h₀.1 ⟨⟨ts, hts, hd, hw⟩, hspan⟩
        fun ts hd => .function (Token.is_iff.2 hk) hd
    next hclass hfun =>
      refine sound_varDeclaration.weaken fun c s c' h c₀ h₀ => behind h₀.1 h fun ts hts => ?_
      refine .variable (hts t ?_)
      have := h₀.2
      simp only [List.any_cons, List.any_nil, Bool.or_eq_true, Token.is_iff] at this
      rw [Token.is_iff]
      simp_all

end

theorem Cursor.reaches_synchronize (c : Cursor) : c.Reaches (synchronize c) := by
  unfold synchronize
  split <;> exact ⟨rfl, Nat.le_refl _, List.prefix_rfl, id⟩

/-- A declaration that is read without a report is one of the grammar. -/
theorem sound_declaration : Sound declaration fun c s? c' =>
    ∃ s, s? = some s ∧ ReadsStmt (Ebnf.Declaration true) c s c' := by
  refine .fix (Q := fun _ c s? c' => ∃ s, s? = some s ∧ ReadsStmt (Ebnf.Declaration true) c s c')
    (fun again hagain _ => .recover (sound_some (sound_declared (hagain ()))) fun e => ?_) ()
  exact .bind (.report e) fun _ => .bind (.modify Cursor.reaches_synchronize) fun _ =>
    .pure fun _ _ _ _ h => h

/-- A program that is read without a report is one of the grammar. -/
theorem sound_program : Sound program fun c ss c' => c'.rest = [] ∧
    Reads (fun ts ss => Ebnf.Program true ts ss ∧ Stmt.AllWithinArity ss) Stmt.allReferences
      c ss c' := by
  refine Sound.weaken (.fix (Q := fun found c ss c' => c'.rest = [] ∧ ∃ new, ss = found.reverse ++ new ∧
    Reads (fun ts ss => Ebnf.Program true ts ss ∧ Stmt.AllWithinArity ss)
      Stmt.allReferences c new c') (fun again hagain found => ?_) []) ?_
  · refine .bind .atEnd fun _ => .ite (fun hend => ?_) fun _ => ?_
    · refine .pure fun c c₀ h₀ => ?_
      obtain ⟨rfl, rfl⟩ := h₀
      refine ⟨List.isEmpty_iff.1 hend, [], (List.append_nil _).symm, ⟨[], rfl, .nil, trivial⟩, ?_⟩
      exact .nil (Nat.le_refl _)
    · refine .bind sound_declaration fun s? => ?_
      cases s? with
      | none =>
        refine (hagain _).weaken fun c₃ ss c₄ h₃ c₂ h₂ => ?_
        obtain ⟨s, hs, -⟩ := h₂
        cases hs
      | some s =>
        refine (hagain _).weaken fun c₃ ss c₄ h₃ c₂ h₂ c₀ h₀ => ?_
        obtain ⟨_, hs, ⟨ts, hts, hdecl, hw⟩, hspan⟩ := h₂
        cases hs
        obtain ⟨hend, new, rfl, ⟨us, hus, hnew, hws⟩, hspans⟩ := h₃
        rw [h₀.2] at hts hspan
        refine ⟨hend, s :: new, by simp, ⟨ts ++ us, ?_, .cons hdecl hnew, hw, hws⟩,
          hspan.append hspans⟩
        rw [hts, hus, List.append_assoc]
  · rintro c ss c' ⟨hend, new, rfl, h⟩
    exact ⟨hend, h⟩

end Lox.Grammar
