/-
Every statement and every declaration of the grammar, with each `else` at the
nearest open `if`, is read as the tree it stands for. Behind a statement that
ends in an open `if` no `else` may follow; otherwise anything may.
-/
import Lox.Proofs.Grammar.Completeness

namespace Lox.Grammar

open Rule

/-! ## First tokens -/

/-- The symbols with which a declaration begins. -/
def declarationStarts : List Symbol :=
  [.kwClass, .kwFun, .kwVar] ++ (statementStarts ++ expressionStarts)

theorem begins_expressionStatement {ts : List Token} {s : Stmt}
    (h : Ebnf.ExpressionStatement ts s) : Begins expressionStarts ts := by
  cases h with
  | intro h => exact (begins_assignment h).append _

theorem begins_statement {nearest : Bool} {ts : List Token} {s : Stmt} {opens : Bool}
    (h : Ebnf.Statement nearest ts s opens) : Begins (statementStarts ++ expressionStarts) ts := by
  cases h with
  | expression h => exact (begins_expressionStatement h).mono (List.subset_append_right _ _)
  | «for» h | «if» h | ifElse h | print h | «return» h | «while» h =>
    exact ⟨_, _, rfl, starts_of_is h (by decide)⟩
  | block h =>
    cases h with
    | intro h => exact ⟨_, _, rfl, starts_of_is h (by decide)⟩

theorem begins_varDeclaration {ts : List Token} {s : Stmt} (h : Ebnf.VarDeclaration ts s) :
    Begins [.kwVar] ts := by
  cases h with
  | plain h | initialized h => exact ⟨_, _, rfl, starts_of_is h (by decide)⟩

theorem begins_declaration {nearest : Bool} {ts : List Token} {s : Stmt}
    (h : Ebnf.Declaration nearest ts s) : Begins declarationStarts ts := by
  cases h with
  | «class» h | function h => exact ⟨_, _, rfl, starts_of_is h (by decide)⟩
  | «variable» h => exact (begins_varDeclaration h).mono (by decide)
  | statement h => exact (begins_statement h).mono (List.subset_append_right _ _)

/-! ## Parts of statements -/

/-- Parts that may be missing are the same up to their numbers. -/
abbrev SameOption {α : Type} (bare : α → α) (a a' : Option α) : Prop := a'.map bare = a.map bare

abbrev SameStmt (s s' : Stmt) : Prop := s'.bare = s.bare

theorem Rule.Yields.some {α : Type} {rule : Rule α} {c : Cursor} {bare : α → α} {a : α}
    {rest : List Token} (h : rule.Yields c (fun a' => bare a' = bare a) rest) :
    (some <$> rule).Yields c (SameOption bare (some a)) rest :=
  .map (h.imp fun a' ha => by rw [SameOption, Option.map_some, Option.map_some, ha])

theorem yields_expressionUnless {ts : List Token} {e? : Option Expr} {s : Symbol} {t : Token}
    {c : Cursor} {rest : List Token} (h : Ebnf.OptionalExpression ts e?) (hs : s ∈ enders)
    (hc : c.rest = ts ++ t :: rest) (ht : t.is s = true)
    (hw : Ebnf.Optional Expr.WithinArity e?) :
    (expressionUnless s).Yields c (SameOption Expr.bare e?) (t :: rest) := by
  cases h with
  | none => exact .sees_true hc ht (.pure rfl hc)
  | some h =>
    have hstop : Stops [s] c.rest := by
      rw [hc]
      refine ((begins_assignment h).append _).stops fun s' hs' he => ?_
      rw [List.mem_singleton] at he
      subst he
      revert hs hs'
      cases s' <;> decide
    refine .sees_false hstop ?_
    refine (yields_assignment h hc (meets_of_is ht hs _) hw).bind fun e c' he hc' => .pure ?_ hc'
    rw [SameOption, Option.map_some, Option.map_some, he]

theorem yields_expressionStatement {ts : List Token} {s : Stmt} {c : Cursor} {rest : List Token}
    (h : Ebnf.ExpressionStatement ts s) (hc : c.rest = ts ++ rest) (hw : s.WithinArity) :
    expressionStatement.Yields c (SameStmt s) rest := by
  cases h with
  | @intro ts e semicolon h hsemicolon =>
    have hc : c.rest = ts ++ (semicolon :: rest) := by simpa using hc
    refine (yields_assignment h hc (meets_of_is hsemicolon (by decide) _) hw).bind
      fun e' c₁ he hc₁ => ?_
    refine (Yields.require hc₁ hsemicolon).bind fun _ c₂ _ hc₂ => .pure ?_ hc₂
    rw [SameStmt, Stmt.bare, Stmt.bare, he]

/-- A variable declaration behind its keyword. -/
theorem yields_varDeclaration {ts us : List Token} {s : Stmt} {c : Cursor} {rest : List Token}
    {keyword : Token} (h : Ebnf.VarDeclaration us s) (hus : us = keyword :: ts)
    (hc : c.rest = ts ++ rest) (hw : s.WithinArity) :
    varDeclaration.Yields c (SameStmt s) rest := by
  cases h with
  | @plain _ name semicolon _ hname hsemicolon =>
    cases hus
    refine (Yields.requireName hc hname).bind fun name' c₁ hn hc₁ => ?_
    subst hn
    refine .accept_none (hc₁ ▸ stops_of_is hsemicolon (by decide) _) ?_
    refine Yields.bind (.pure (P := (· = none)) rfl hc₁) fun init c₂ hinit hc₂ => ?_
    subst hinit
    exact (Yields.require hc₂ hsemicolon).bind fun _ c₃ _ hc₃ => .pure rfl hc₃
  | @initialized _ name equals semicolon ts e _ hname hequals h hsemicolon =>
    cases hus
    have hc : c.rest = name :: equals :: (ts ++ (semicolon :: rest)) := by simpa using hc
    refine (Yields.requireName hc hname).bind fun name' c₁ hn hc₁ => ?_
    subst hn
    refine (Yields.accept hc₁ (by simpa using hequals)).bind fun t? c₂ ht hc₂ => ?_
    subst ht
    have he := yields_assignment h hc₂ (meets_of_is hsemicolon (by decide) _) hw
    refine Yields.bind he.some fun init c₃ hinit hc₃ => ?_
    refine (Yields.require hc₃ hsemicolon).bind fun _ c₄ _ hc₄ => .pure ?_ hc₄
    cases init with
    | none => cases hinit
    | some e' =>
      rw [SameStmt, Stmt.bare, Stmt.bare, Option.some.inj hinit]

theorem yields_forInitializer {ts : List Token} {s? : Option Stmt} {c : Cursor} {rest : List Token}
    (h : Ebnf.ForInitializer ts s?) (hc : c.rest = ts ++ rest)
    (hw : Ebnf.Optional Stmt.WithinArity s?) :
    forInitializer.Yields c (SameOption Stmt.bare s?) rest := by
  cases h with
  | none h =>
    refine (Yields.accept hc (Token.any_is_of_is h (by decide))).bind fun t? c₁ ht hc₁ => ?_
    subst ht
    have hvar := @stops_of_is [.kwVar] _ _ h (by decide) [] _ [] rfl
    simp only [List.any_cons, List.any_nil, Bool.or_false] at hvar
    simp only [hvar, Bool.false_eq_true, if_false]
    exact .pure rfl hc₁
  | expression h =>
    have hstop : Stops [.semicolon, .kwVar] c.rest := by
      rw [hc]
      exact ((begins_expressionStatement h).append _).stops (by decide)
    exact .accept_none hstop (yields_expressionStatement h hc hw).some
  | «variable» h =>
    obtain ⟨keyword, us, rfl, hk⟩ : ∃ keyword us, ts = keyword :: us ∧ keyword.is .kwVar = true := by
      cases h with
      | plain hk | initialized hk => exact ⟨_, _, rfl, hk⟩
    refine (Yields.accept hc (Token.any_is_of_is hk (by decide))).bind fun t? c₁ ht hc₁ => ?_
    subst ht
    simp only [hk, if_true]
    exact (yields_varDeclaration h rfl hc₁ hw).some

theorem bare_forLoop {init init' : Option Stmt} {test test' step step' : Option Expr}
    {body body' : Stmt} (hi : SameOption Stmt.bare init init')
    (ht : SameOption Expr.bare test test') (hs : SameOption Expr.bare step step')
    (hb : SameStmt body body') :
    SameStmt (Ebnf.whileForm init test step body) (forLoop init' test' step' body') := by
  have none_or {α : Type} {bare : α → α} {a a' : Option α} (h : SameOption bare a a') :
      (a = none ∧ a' = none) ∨ ∃ x x', a = some x ∧ a' = some x' ∧ bare x' = bare x := by
    cases a <;> cases a' <;> simp_all [SameOption]
  obtain ⟨rfl, rfl⟩ | ⟨i, i', rfl, rfl, hi⟩ := none_or hi <;>
    obtain ⟨rfl, rfl⟩ | ⟨t, t', rfl, rfl, ht⟩ := none_or ht <;>
    obtain ⟨rfl, rfl⟩ | ⟨e, e', rfl, rfl, hs⟩ := none_or hs <;>
    simp_all [SameStmt, forLoop, Ebnf.whileForm, Ebnf.withInitializer, Ebnf.whileTrue,
      Ebnf.withIncrement, Stmt.bare, Stmt.bareAll, Expr.bare]

theorem yields_condition {ts : List Token} {e : Expr} {open' close : Token} {c : Cursor}
    {rest : List Token} (place : Place) (hopen : open'.is .leftParen = true)
    (h : Ebnf.Assignment ts e) (hclose : close.is .rightParen = true)
    (hc : c.rest = open' :: (ts ++ close :: rest)) (hw : e.WithinArity) :
    (condition place).Yields c (Same e) rest := by
  refine (Yields.require hc hopen).bind fun _ c₁ _ hc₁ => ?_
  refine (yields_assignment h hc₁ (meets_of_is hclose (by decide) _) hw).bind fun e' c₂ he hc₂ => ?_
  exact (Yields.require hc₂ hclose).bind fun _ c₃ _ hc₃ => .pure he hc₃

/-! ## Parameters -/

theorem yields_parameterList {ts names : List Token} (h : Ebnf.ParameterList ts names) :
    ∀ {c : Cursor} {rest found : List Token}, c.rest = ts ++ rest → Meets [.rightParen] rest →
    found.length + names.length ≤ 255 →
    (parametersFrom found).Yields c (· = found.reverse ++ names) rest := by
  induction h with
  | @last name hname =>
    intro c rest found hc hrest hlength
    have hle : ¬ maxArity ≤ found.length := by
      rw [List.length_singleton] at hlength
      exact Nat.not_le.2 hlength
    refine .fix ?_
    simp only [parametersStep, hle, if_false]
    refine (Yields.requireName hc hname).bind fun name' c₁ hn hc₁ => ?_
    subst hn
    have hc₁ : c₁.rest = rest := hc₁
    rw [← hc₁] at hrest ⊢
    exact .accept_none (hrest.stops (by decide)) (.pure (by simp) rfl)
  | @more name comma ts names hname hcomma _ ih =>
    intro c rest found hc hrest hlength
    have hle : ¬ maxArity ≤ found.length := by
      rw [List.length_cons] at hlength
      exact Nat.not_le.2 (by rw [maxArity]; omega)
    refine .fix ?_
    simp only [parametersStep, hle, if_false]
    refine (Yields.requireName hc hname).bind fun name' c₁ hn hc₁ => ?_
    subst hn
    have hc₁ : c₁.rest = comma :: (ts ++ rest) := hc₁
    refine (Yields.accept hc₁ (by simpa using hcomma)).bind fun comma? c₂ hcomma? hc₂ => ?_
    subst hcomma?
    have hlt : c₂.left < c.left := by
      simp only [Cursor.left_eq, hc, hc₂, List.length_append, List.length_cons]
      omega
    refine Yields.imp (.below hlt (ih hc₂ hrest ?_)) fun names' hnames => ?_
    · rw [List.length_cons] at hlength ⊢
      omega
    · rw [hnames]
      simp

theorem yields_parameters {ts names : List Token} {c : Cursor} {rest : List Token}
    (h : Ebnf.Parameters ts names) (hc : c.rest = ts ++ rest) (hrest : Meets [.rightParen] rest)
    (hlength : names.length ≤ 255) : parameters.Yields c (· = names) rest := by
  cases h with
  | none =>
    obtain ⟨t, us, rfl, ht⟩ := hrest
    exact .sees_true hc (by simpa using ht) (.pure rfl hc)
  | some h =>
    have hstop : Stops [.rightParen] c.rest := by
      rw [hc]
      have hbegins : Begins [] ts := by
        cases h with
        | last hn | more hn => exact ⟨_, _, rfl, starts_of_isIdentifier hn⟩
      exact (hbegins.append _).stops fun _ hs => by cases hs
    refine .sees_false hstop (@yields_parameterList _ _ h _ _ [] hc hrest ?_)
    rw [List.length_nil]
    omega

/-! ## Statements and declarations -/

/-- A declaration, where fewer than `n` tokens are ahead. -/
def declarationWithin (n : Nat) : Rule (Option Stmt) :=
  below n (fix fun again _ =>
    recover (some <$> declared (again ())) fun e => do
      report e
      modify synchronize
      return none) ()

theorem Rule.Yields.recover {α : Type} {rule : Rule α} {handler : ParseError → Rule α} {c : Cursor}
    {P : α → Prop} {rest : List Token} (h : rule.Yields c P rest) :
    (recover rule handler).Yields c P rest := by
  obtain ⟨a, c', hr, hrest⟩ := h
  refine ⟨a, c', ?_, hrest⟩
  rw [Rule.recover, hr]

/-- The declaration is there, and it is this one up to its numbers. -/
abbrev Found (s : Stmt) : Option Stmt → Prop := SameOption Stmt.bare (some s)

theorem Begins.ne_nil {symbols : List Symbol} {ts : List Token} (h : Begins symbols ts) :
    ts.length ≠ 0 := by
  obtain ⟨t, us, rfl, -⟩ := h
  exact Nat.succ_ne_zero _

/-- No `else` stands at the beginning of declarations. -/
theorem stops_else_declarations {ts : List Token} {ss : List Stmt} {rest : List Token}
    (h : Ebnf.Declarations true ts ss) (hrest : Stops [.kwElse] rest) :
    Stops [.kwElse] (ts ++ rest) := by
  cases h with
  | nil => exact hrest
  | cons h _ => exact (((begins_declaration h).append _).append _).stops (by decide)

mutual

theorem yields_statement : ∀ {ts : List Token} {s : Stmt} {opens : Bool},
    Ebnf.Statement true ts s opens → ∀ {n : Nat} {c : Cursor} {rest : List Token}, c.left ≤ n →
    c.rest = ts ++ rest → (opens = true → Stops [.kwElse] rest) → s.WithinArity →
    (statement (declarationWithin n)).Yields c (SameStmt s) rest
  | _, _, _, .expression h, n, c, rest, hn, hc, ho, hw => by
    have hstop : Stops statementStarts c.rest := by
      rw [hc]
      exact ((begins_expressionStatement h).append _).stops (by decide)
    exact .fix (.accept_none hstop (yields_expressionStatement h hc hw))
  | _, _, _, @Ebnf.Statement.for _ keyword open' semicolon close as bs cs ds _ _ _ _ _ hfor hopen hinit
      htest hsemicolon hstep hclose hbody, n, c, rest, hn, hc, ho, hw => by
    rw [Ebnf.withinArity_whileForm] at hw
    obtain ⟨hwi, hwt, hws, hwb⟩ := hw
    have hc : c.rest = keyword :: open' ::
        (as ++ (bs ++ semicolon :: (cs ++ close :: (ds ++ rest)))) := by simpa using hc
    refine .fix ((Yields.accept hc (Token.any_is_of_is hfor (by decide))).bind fun t? c₁ ht hc₁ => ?_)
    subst ht
    simp only [Token.is_iff.1 hfor]
    refine (Yields.require hc₁ hopen).bind fun _ c₂ _ hc₂ => ?_
    refine (yields_forInitializer hinit hc₂ hwi).bind fun init' c₃ hinit' hc₃ => ?_
    refine (yields_expressionUnless htest (by decide) hc₃ hsemicolon hwt).bind
      fun test' c₄ htest' hc₄ => ?_
    refine (Yields.require hc₄ hsemicolon).bind fun _ c₅ _ hc₅ => ?_
    refine (yields_expressionUnless hstep (by decide) hc₅ hclose hws).bind
      fun step' c₆ hstep' hc₆ => ?_
    refine (Yields.require hc₆ hclose).bind fun _ c₇ _ hc₇ => ?_
    have hlt : c₇.left < c.left := by
      simp only [Cursor.left_eq, hc, hc₇, List.length_append, List.length_cons]
      omega
    refine Yields.bind (.below hlt (yields_statement hbody (by omega) hc₇ ho hwb))
      fun body' c₈ hbody' hc₈ => ?_
    exact .pure (bare_forLoop hinit' htest' hstep' hbody') hc₈
  | _, _, _, @Ebnf.Statement.if _ keyword open' close ts us _ _ _ hif hopen htest hclose hthen, n, c,
      rest, hn, hc, ho, hw => by
    have hc : c.rest = keyword :: open' :: (ts ++ close :: (us ++ rest)) := by simpa using hc
    refine .fix ((Yields.accept hc (Token.any_is_of_is hif (by decide))).bind fun t? c₁ ht hc₁ => ?_)
    subst ht
    simp only [Token.is_iff.1 hif]
    refine (yields_condition _ hopen htest hclose hc₁ hw.1).bind fun test' c₂ htest' hc₂ => ?_
    have hlt : c₂.left < c.left := by
      simp only [Cursor.left_eq, hc, hc₂, List.length_append, List.length_cons]
      omega
    refine Yields.bind (.below hlt (yields_statement hthen (by omega) hc₂ (fun _ => ho rfl) hw.2))
      fun then' c₃ hthen' hc₃ => ?_
    rw [← hc₃] at ho ⊢
    refine .accept_none (ho rfl) (.pure ?_ rfl)
    rw [SameStmt, Stmt.bare, Stmt.bare, htest', hthen']
  | _, _, _, @Ebnf.Statement.ifElse _ keyword open' close else' ts us vs _ _ _ _ _ hif hopen htest hclose
      hthen hclosed helse hs, n, c, rest, hn, hc, ho, hw => by
    have hc : c.rest = keyword :: open' :: (ts ++ close :: (us ++ else' :: (vs ++ rest))) := by
      simpa using hc
    refine .fix ((Yields.accept hc (Token.any_is_of_is hif (by decide))).bind fun t? c₁ ht hc₁ => ?_)
    subst ht
    simp only [Token.is_iff.1 hif]
    refine (yields_condition _ hopen htest hclose hc₁ hw.1).bind fun test' c₂ htest' hc₂ => ?_
    have hlt : c₂.left < c.left := by
      simp only [Cursor.left_eq, hc, hc₂, List.length_append, List.length_cons]
      omega
    -- The statement before the `else` is not open, so nothing is asked of what follows it.
    have hopens := hclosed rfl
    refine Yields.bind (.below hlt (yields_statement hthen (by omega) hc₂
      (fun h => by rw [hopens] at h; cases h) hw.2.1)) fun then' c₃ hthen' hc₃ => ?_
    refine (Yields.accept hc₃ (by simpa using helse)).bind fun else? c₄ helse? hc₄ => ?_
    subst helse?
    have hlt' : c₄.left < c.left := by
      simp only [Cursor.left_eq, hc, hc₄, List.length_append, List.length_cons]
      omega
    refine Yields.bind (.below hlt' (yields_statement hs (by omega) hc₄ ho hw.2.2))
      fun e' c₅ he' hc₅ => .pure ?_ hc₅
    rw [SameStmt, Stmt.bare, Stmt.bare, htest', hthen', he']
  | _, _, _, @Ebnf.Statement.print _ keyword semicolon ts _ hprint h hsemicolon, n, c, rest, hn, hc, ho,
      hw => by
    have hc : c.rest = keyword :: (ts ++ semicolon :: rest) := by simpa using hc
    refine .fix ((Yields.accept hc (Token.any_is_of_is hprint (by decide))).bind
      fun t? c₁ ht hc₁ => ?_)
    subst ht
    simp only [Token.is_iff.1 hprint]
    refine (yields_assignment h hc₁ (meets_of_is hsemicolon (by decide) _) hw).bind
      fun e' c₂ he hc₂ => ?_
    refine (Yields.require hc₂ hsemicolon).bind fun _ c₃ _ hc₃ => .pure ?_ hc₃
    rw [SameStmt, Stmt.bare, Stmt.bare, he]
  | _, _, _, @Ebnf.Statement.return _ keyword semicolon ts e hreturn h hsemicolon, n, c, rest, hn, hc,
      ho, hw => by
    have hc : c.rest = keyword :: (ts ++ semicolon :: rest) := by simpa using hc
    have hw : Ebnf.Optional Expr.WithinArity e := by
      cases e with
      | none => trivial
      | some e => exact hw
    refine .fix ((Yields.accept hc (Token.any_is_of_is hreturn (by decide))).bind
      fun t? c₁ ht hc₁ => ?_)
    subst ht
    simp only [Token.is_iff.1 hreturn]
    refine (yields_expressionUnless h (by decide) hc₁ hsemicolon hw).bind fun e' c₂ he hc₂ => ?_
    refine (Yields.require hc₂ hsemicolon).bind fun _ c₃ _ hc₃ => .pure ?_ hc₃
    cases e <;> cases e' <;> simp_all [SameStmt, SameOption, Stmt.bare]
  | _, _, _, @Ebnf.Statement.while _ keyword open' close ts us _ _ _ hwhile hopen htest hclose hbody, n,
      c, rest, hn, hc, ho, hw => by
    have hc : c.rest = keyword :: open' :: (ts ++ close :: (us ++ rest)) := by simpa using hc
    refine .fix ((Yields.accept hc (Token.any_is_of_is hwhile (by decide))).bind
      fun t? c₁ ht hc₁ => ?_)
    subst ht
    simp only [Token.is_iff.1 hwhile]
    refine (yields_condition _ hopen htest hclose hc₁ hw.1).bind fun test' c₂ htest' hc₂ => ?_
    have hlt : c₂.left < c.left := by
      simp only [Cursor.left_eq, hc, hc₂, List.length_append, List.length_cons]
      omega
    refine Yields.bind (.below hlt (yields_statement hbody (by omega) hc₂ ho hw.2))
      fun body' c₃ hbody' hc₃ => .pure ?_ hc₃
    rw [SameStmt, Stmt.bare, Stmt.bare, htest', hbody']
  | _, _, _, @Ebnf.Statement.block _ ts _ h, n, c, rest, hn, hc, ho, hw => by
    obtain ⟨brace, us, hts, hbrace⟩ : ∃ brace us, ts = brace :: us ∧ brace.is .leftBrace = true := by
      cases h with
      | intro hopen => exact ⟨_, _, rfl, hopen⟩
    have hc : c.rest = brace :: (us ++ rest) := by rw [hc, hts]; rfl
    refine .fix ((Yields.accept hc (Token.any_is_of_is hbrace (by decide))).bind
      fun t? c₁ ht hc₁ => ?_)
    subst ht
    simp only [Token.is_iff.1 hbrace]
    have hlt : c₁.left < n := by
      simp only [Cursor.left_eq, hc, hc₁, List.length_cons] at hn ⊢
      omega
    refine (yields_block h hts hlt hc₁ hw).bind fun ss' c₂ hss hc₂ => .pure ?_ hc₂
    rw [SameStmt, Stmt.bare, Stmt.bare, hss]

/-- A block behind its opening brace. -/
theorem yields_block : ∀ {ts' : List Token} {ss : List Stmt}, Ebnf.Block true ts' ss →
    ∀ {n : Nat} {c : Cursor} {rest ts : List Token} {brace : Token}, ts' = brace :: ts →
    c.left < n → c.rest = ts ++ rest → Stmt.AllWithinArity ss →
    (block (declarationWithin n)).Yields c (fun ss' => Stmt.bareAll ss' = Stmt.bareAll ss) rest
  | _, _, @Ebnf.Block.intro _ _ close ts _ _ h hclose, n, c, rest, _, _, hts, hn, hc, hw => by
    cases hts
    have hc : c.rest = ts ++ (close :: rest) := by simpa using hc
    refine Yields.bind (@yields_declarations _ _ h _ _ _ [] hn hc (meets_of_is hclose (by decide) _) hw)
      fun ss' c₁ hss hc₁ => ?_
    obtain ⟨new, rfl, hnew⟩ := hss
    exact (Yields.require hc₁ hclose).bind fun _ c₂ _ hc₂ => .pure hnew hc₂

theorem yields_declarations : ∀ {ts : List Token} {ss : List Stmt}, Ebnf.Declarations true ts ss →
    ∀ {n : Nat} {c : Cursor} {rest : List Token} {found : List Stmt}, c.left < n →
    c.rest = ts ++ rest → Meets [.rightBrace] rest → Stmt.AllWithinArity ss →
    (declarationsFrom (declarationWithin n) found).Yields c
      (fun ss' => ∃ new, ss' = found.reverse ++ new ∧ Stmt.bareAll new = Stmt.bareAll ss) rest
  | _, _, .nil, n, c, rest, found, hn, hc, hrest, hw => by
    obtain ⟨t, us, rfl, ht⟩ := hrest
    refine .fix (.sees_true hc (by simpa using ht) (.atEnd ?_))
    simp only [Bool.true_or, if_true]
    exact .pure ⟨[], (List.append_nil _).symm, rfl⟩ hc
  | _, _, @Ebnf.Declarations.cons _ ts us s ss h hmore, n, c, rest, found, hn, hc, hrest, hw => by
    have hc : c.rest = ts ++ (us ++ rest) := by simpa using hc
    have hbegins := begins_declaration h
    have hstop : Stops [.rightBrace] c.rest := by
      rw [hc]
      exact (hbegins.append _).stops (by decide)
    have hempty : c.rest.isEmpty = false := by
      obtain ⟨t, vs, rfl, -⟩ := hbegins
      rw [hc]
      rfl
    refine .fix (.sees_false hstop (.atEnd ?_))
    simp only [hempty, Bool.or_self, Bool.false_eq_true, if_false]
    have helse := stops_else_declarations hmore (hrest.stops (by decide))
    refine Yields.bind (.below hn (yields_declaration h hc helse hw.1)) fun s? c₁ hs hc₁ => ?_
    have hlt : c₁.left < c.left := by
      have := hbegins.ne_nil
      simp only [Cursor.left_eq, hc, hc₁, List.length_append]
      omega
    cases s? with
    | none => cases hs
    | some s' =>
      refine Yields.imp (.below hlt (yields_declarations hmore (by omega) hc₁ hrest hw.2)) ?_
      rintro ss' ⟨new, rfl, hnew⟩
      refine ⟨s' :: new, by simp, ?_⟩
      rw [Stmt.bareAll, Stmt.bareAll, hnew, Option.some.inj hs]

theorem yields_declaration : ∀ {ts : List Token} {s : Stmt}, Ebnf.Declaration true ts s →
    ∀ {c : Cursor} {rest : List Token}, c.rest = ts ++ rest → Stops [.kwElse] rest →
    s.WithinArity → declaration.Yields c (Found s) rest
  | _, _, @Ebnf.Declaration.class _ keyword name open' close ts decls hclass hname hopen hmethods hclose,
      c, rest, hc, helse, hw => by
    have hc : c.rest = keyword :: name :: open' :: (ts ++ close :: rest) := by simpa using hc
    have hdeclared : (declared (declarationWithin c.left)).Yields c
        (SameStmt (.class name decls)) rest := by
      refine (Yields.accept hc (Token.any_is_of_is hclass (by decide))).bind fun t? c₁ ht hc₁ => ?_
      subst ht
      simp only [Token.is_iff.1 hclass]
      refine (Yields.requireName hc₁ hname).bind fun name' c₂ hn hc₂ => ?_
      subst hn
      refine (Yields.require hc₂ hopen).bind fun _ c₃ _ hc₃ => ?_
      have hlt : c₃.left < c.left := by
        simp only [Cursor.left_eq, hc, hc₃, List.length_append, List.length_cons]
        omega
      refine Yields.bind (@yields_methods _ _ hmethods _ _ _ [] hlt hc₃
        (meets_of_is hclose (by decide) _) hw) fun ds' c₄ hds hc₄ => ?_
      obtain ⟨new, rfl, hnew⟩ := hds
      refine (Yields.require hc₄ hclose).bind fun _ c₅ _ hc₅ => .pure ?_ hc₅
      exact congrArg (Stmt.class name') hnew
    exact .fix hdeclared.some.recover
  | _, _, @Ebnf.Declaration.function _ keyword ts decl hfun h, c, rest, hc, helse, hw => by
    have hc : c.rest = keyword :: (ts ++ rest) := hc
    have hdeclared :
        (declared (declarationWithin c.left)).Yields c (SameStmt (.function decl)) rest := by
      refine (Yields.accept hc (Token.any_is_of_is hfun (by decide))).bind fun t? c₁ ht hc₁ => ?_
      subst ht
      simp only [Token.is_iff.1 hfun]
      have hlt : c₁.left < c.left := by
        simp only [Cursor.left_eq, hc, hc₁, List.length_cons]
        omega
      refine (yields_function h hlt hc₁ hw).bind fun d' c₂ hd hc₂ => .pure ?_ hc₂
      rw [SameStmt, Stmt.bare, Stmt.bare, hd]
    exact .fix hdeclared.some.recover
  | _, s, @Ebnf.Declaration.variable _ ts _ h, c, rest, hc, helse, hw => by
    obtain ⟨keyword, us, rfl, hk⟩ : ∃ keyword us, ts = keyword :: us ∧ keyword.is .kwVar = true := by
      cases h with
      | plain hk | initialized hk => exact ⟨_, _, rfl, hk⟩
    have hdeclared : (declared (declarationWithin c.left)).Yields c (SameStmt s) rest := by
      refine (Yields.accept hc (Token.any_is_of_is hk (by decide))).bind fun t? c₁ ht hc₁ => ?_
      subst ht
      simp only [Token.is_iff.1 hk]
      exact yields_varDeclaration h rfl hc₁ hw
    exact .fix hdeclared.some.recover
  | _, s, .statement h, c, rest, hc, helse, hw => by
    have hstop : Stops [.kwClass, .kwFun, .kwVar] c.rest := by
      rw [hc]
      exact ((begins_statement h).append _).stops (by decide)
    have hdeclared : (declared (declarationWithin c.left)).Yields c (SameStmt s) rest :=
      .accept_none hstop (yields_statement h (Nat.le_refl _) hc (fun _ => helse) hw)
    exact .fix hdeclared.some.recover

theorem yields_function : ∀ {ts : List Token} {d : FunctionDecl}, Ebnf.Function true ts d →
    ∀ {n : Nat} {c : Cursor} {rest : List Token} {sort : FunctionSort}, c.left < n →
    c.rest = ts ++ rest → d.WithinArity →
    (function sort (declarationWithin n)).Yields c (fun d' => d'.bare = d.bare) rest
  | _, _, @Ebnf.Function.intro _ name open' close ts us _ _ hname hopen hparams hclose h, n, c, rest,
      sort, hn, hc, hw => by
    obtain ⟨brace, vs, hus, hbrace⟩ : ∃ brace vs, us = brace :: vs ∧ brace.is .leftBrace = true := by
      cases h with
      | intro hopen => exact ⟨_, _, rfl, hopen⟩
    have hc : c.rest = name :: open' :: (ts ++ close :: brace :: (vs ++ rest)) := by
      rw [hc, hus]
      simp
    refine (Yields.requireName hc hname).bind fun name' c₁ hname' hc₁ => ?_
    subst hname'
    refine (Yields.require hc₁ hopen).bind fun _ c₂ _ hc₂ => ?_
    refine (yields_parameters hparams hc₂ (meets_of_is hclose (by decide) _) hw.1).bind
      fun params' c₃ hparams' hc₃ => ?_
    subst hparams'
    refine (Yields.require hc₃ hclose).bind fun _ c₄ _ hc₄ => ?_
    refine (Yields.require hc₄ hbrace).bind fun _ c₅ _ hc₅ => ?_
    have hlt : c₅.left < n := by
      simp only [Cursor.left_eq, hc, hc₅, List.length_append, List.length_cons] at hn ⊢
      omega
    refine (yields_block h hus hlt hc₅ hw.2).bind fun body' c₆ hbody hc₆ => .pure ?_ hc₆
    rw [FunctionDecl.bare, FunctionDecl.bare, hbody]

theorem yields_methods : ∀ {ts : List Token} {ds : List FunctionDecl}, Ebnf.Methods true ts ds →
    ∀ {n : Nat} {c : Cursor} {rest : List Token} {found : List FunctionDecl}, c.left < n →
    c.rest = ts ++ rest → Meets [.rightBrace] rest → FunctionDecl.AllWithinArity ds →
    (methodsFrom (declarationWithin n) found).Yields c (fun ds' => ∃ new,
      ds' = found.reverse ++ new ∧ FunctionDecl.bareAll new = FunctionDecl.bareAll ds) rest
  | _, _, .nil, n, c, rest, found, hn, hc, hrest, hw => by
    obtain ⟨t, us, rfl, ht⟩ := hrest
    refine .fix (.sees_true hc (by simpa using ht) (.atEnd ?_))
    simp only [Bool.true_or, if_true]
    exact .pure ⟨[], (List.append_nil _).symm, rfl⟩ hc
  | _, _, @Ebnf.Methods.cons _ ts us d ds h hmore, n, c, rest, found, hn, hc, hrest, hw => by
    have hc : c.rest = ts ++ (us ++ rest) := by simpa using hc
    have hbegins : Begins [] ts := by
      cases h with
      | intro hname => exact ⟨_, _, rfl, starts_of_isIdentifier hname⟩
    have hstop : Stops [.rightBrace] c.rest := by
      rw [hc]
      exact (hbegins.append _).stops fun _ hs => nomatch hs
    have hempty : c.rest.isEmpty = false := by
      obtain ⟨t, vs, rfl, -⟩ := hbegins
      rw [hc]
      rfl
    refine .fix (.sees_false hstop (.atEnd ?_))
    simp only [hempty, Bool.or_self, Bool.false_eq_true, if_false]
    refine (yields_function h hn hc hw.1).bind fun d' c₁ hd hc₁ => ?_
    have hlt : c₁.left < c.left := by
      have := hbegins.ne_nil
      simp only [Cursor.left_eq, hc, hc₁, List.length_append]
      omega
    refine Yields.imp (.below hlt (yields_methods hmore (by omega) hc₁ hrest hw.2)) ?_
    rintro ds' ⟨new, rfl, hnew⟩
    refine ⟨d' :: new, by simp, ?_⟩
    rw [FunctionDecl.bareAll, FunctionDecl.bareAll, hnew, hd]

end

/-- The loop over the declarations of a program finds these behind the ones it has. -/
def YieldsProgram (ts : List Token) (ss : List Stmt) : Prop :=
  ∀ (c : Cursor) (found : List Stmt), c.rest = ts → Stmt.AllWithinArity ss →
    (programFrom found).Yields c
      (fun ss' => ∃ new, ss' = found.reverse ++ new ∧ Stmt.bareAll new = Stmt.bareAll ss) []

theorem YieldsProgram.nil : YieldsProgram [] [] := by
  intro c found hc _
  refine .fix (.atEnd ?_)
  simp only [hc, List.isEmpty_nil, if_true]
  exact .pure ⟨[], (List.append_nil _).symm, rfl⟩ hc

theorem YieldsProgram.cons {ts us : List Token} {s : Stmt} {ss : List Stmt}
    (h : Ebnf.Declaration true ts s) (hmore : Ebnf.Declarations true us ss)
    (ih : YieldsProgram us ss) : YieldsProgram (ts ++ us) (s :: ss) := by
  intro c found hc hw
  have hbegins := begins_declaration h
  have hempty : c.rest.isEmpty = false := by
    obtain ⟨t, vs, rfl, -⟩ := hbegins
    rw [hc]
    rfl
  refine .fix (.atEnd ?_)
  simp only [hempty, Bool.false_eq_true, if_false]
  have helse := @stops_else_declarations _ _ [] hmore fun _ _ h => by cases h
  rw [List.append_nil] at helse
  refine (yields_declaration h hc helse hw.1).bind fun s? c₁ hs hc₁ => ?_
  have hlt : c₁.left < c.left := by
    have := hbegins.ne_nil
    simp only [Cursor.left_eq, hc, hc₁, List.length_append]
    omega
  cases s? with
  | none => cases hs
  | some s' =>
    refine Yields.imp (.below hlt (ih c₁ _ hc₁ hw.2)) ?_
    rintro ss' ⟨new, rfl, hnew⟩
    refine ⟨s' :: new, by simp, ?_⟩
    rw [Stmt.bareAll, Stmt.bareAll, hnew, Option.some.inj hs]

/-- A program of the grammar is read as it stands. -/
theorem yields_programFrom : ∀ {ts : List Token} {ss : List Stmt}, Ebnf.Declarations true ts ss →
    YieldsProgram ts ss
  | _, _, .nil => .nil
  | _, _, .cons h hmore => .cons h hmore (yields_programFrom hmore)

end Lox.Grammar
