/-
Programs one behind the other. The trees of the tokens of two programs are the
trees of the first one and then those of the second one, with the numbers that
they get one after the other (`parse_append`), for all rules carry over what
they find to where other tokens follow.
-/
import Lox.Proofs.Grammar.Carry
import Lox.Proofs.Grammar.Exact

namespace Lox.Grammar

open Rule

variable {L : Likeness} [L.Numbered] {behind : List Token}

/-! ## Expressions -/

section

variable {E E' : Rule Expr} (hE : Carries L behind False false (Expr.Like L) E E')

include hE

theorem carries_primary : Carries L behind False false (Expr.Like L) (primary E) (primary E') := by
  have constant (l : Literal) : Carries L behind False false (Expr.Like L)
      (do modify Cursor.advance; return .literal l) (do modify Cursor.advance; return .literal l) :=
    .seq .advance fun _ _ _ => .pure (.literal l)
  refine .peek fun t t' ht => ?_
  rw [ht.kind]
  split
  · exact constant _
  · exact constant _
  · exact constant _
  · exact constant _
  · exact constant _
  · refine .seq .advance fun _ _ _ => .seq .freshId fun id _ hid => .pure ?_
    exact hid ▸ .this (Likeness.Numbered.node_refl id) ht
  · refine .seq .advance fun _ _ _ => .seq .freshId fun id _ hid => .pure ?_
    exact hid ▸ .variable (Likeness.Numbered.node_refl id) ht
  · exact .seq .advance fun _ _ _ => .seq hE fun _ _ he => .seq (.require _ _) fun _ _ _ =>
      .pure (.grouping he)
  · exact .fail _

theorem carries_arguments :
    Carries L behind False false (List.Forall₂ (Expr.Like L)) (arguments E) (arguments E') := by
  refine .sees fun b => .ite Iff.rfl (fun _ => .pure .nil) fun _ => ?_
  refine .fix (S := List.Forall₂ (Expr.Like L))
    (fun again again' hagain found found' hfound => ?_) .nil
  rw [argumentsStep, argumentsStep, ← hfound.length_eq]
  refine .limit (.seq hE fun e e' he => .accept (fun comma comma' _ => ?_) ?_ (.inr False.elim))
  · exact hagain _ _ (.cons he hfound)
  · exact .pure (List.rel_reverse (.cons he hfound))

theorem carries_call : Carries L behind False false (Expr.Like L) (call E) (call E') := by
  refine .seq (carries_primary hE) fun e e' he =>
    .fix (S := Expr.Like L) (fun again again' hagain callee callee' hc => ?_) he
  refine .accept (fun t t' ht => .ite (by rw [ht.is]) (fun _ => ?_) fun _ => ?_) (.pure hc)
    (.inr False.elim)
  · exact .seq (carries_arguments hE) fun _ _ hargs => .seq (.require _ _) fun _ _ hparen =>
      hagain _ _ (.call hc hparen hargs)
  · exact .seq (.requireName _) fun _ _ hname => hagain _ _ (.get hc hname)

theorem carries_unary : Carries L behind False false (Expr.Like L) (unary E) (unary E') := by
  refine .fix (S := Eq) (fun again again' hagain u u' hu => ?_) rfl
  refine .accept (fun op op' hop => ?_) (carries_call hE) (.inr False.elim)
  exact .seq (hagain () () rfl) fun _ _ he => .pure (.unary hop he)

omit hE in
theorem carries_chain {level : Level} (hnode : ∀ {left left' op op' right right'},
      left.Like L left' → op.Like L op' → right.Like L right' →
      (level.node left op right).Like L (level.node left' op' right'))
    {operand operand' : Rule Expr}
    (h : Carries L behind False false (Expr.Like L) operand operand') :
    Carries L behind False false (Expr.Like L) (chain level operand) (chain level operand') := by
  refine .seq h fun e e' he =>
    .fix (S := Expr.Like L) (fun again again' hagain left left' hleft => ?_) he
  refine .accept (fun op op' hop => ?_) (.pure hleft) (.inr False.elim)
  exact .seq h fun _ _ hright => hagain _ _ (hnode hleft hop hright)

theorem carries_operation :
    Carries L behind False false (Expr.Like L) (operation E) (operation E') := by
  have logical {operators : List Symbol} {operand operand' : Rule Expr}
      (h : Carries L behind False false (Expr.Like L) operand operand') :
      Carries L behind False false (Expr.Like L) (chain ⟨operators, .logical⟩ operand)
        (chain ⟨operators, .logical⟩ operand') := carries_chain .logical h
  have binary {operators : List Symbol} {operand operand' : Rule Expr}
      (h : Carries L behind False false (Expr.Like L) operand operand') :
      Carries L behind False false (Expr.Like L) (chain ⟨operators, .binary⟩ operand)
        (chain ⟨operators, .binary⟩ operand') := carries_chain .binary h
  exact logical (logical (binary (binary (binary (binary (carries_unary hE))))))

theorem carries_assignment :
    Carries L behind False false (Expr.Like L) (assignment E) (assignment E') := by
  refine .seq (carries_operation hE) fun target target' ht => .accept (fun equals equals' _ => ?_)
    (.pure ht) (.inr False.elim)
  refine .seq hE fun value value' hv => ?_
  have reported : Carries L behind False false (Expr.Like L)
      (do report ⟨equals, .invalidTarget⟩; return target)
      (do report ⟨equals', .invalidTarget⟩; return target') := .report _ (.pure ht)
  cases ht with
  | «variable» _ hname =>
    refine .seq .freshId fun id _ hid => .pure ?_
    exact hid ▸ .assign (Likeness.Numbered.node_refl id) hname hv
  | get hobject hname => exact .pure (.set hobject hname hv)
  | _ => exact reported

end

theorem carries_expression :
    Carries L behind False false (Expr.Like L) expression expression :=
  .fix (S := Eq) (fun _ _ hagain _ _ _ => carries_assignment (hagain () () rfl)) rfl

/-! ## Statements -/

theorem carries_expressionUnless (s : Symbol) : Carries L behind False false
    (Option.Rel (Expr.Like L)) (expressionUnless s) (expressionUnless s) :=
  .sees fun _ => .ite Iff.rfl (fun _ => .pure .none) fun _ =>
    .seq carries_expression fun _ _ he => .pure (.some he)

section

variable {F : Prop}

theorem carries_expressionStatement : Carries L behind F true (Stmt.Like L) expressionStatement
    expressionStatement :=
  .before carries_expression fun _ _ he => .took (.require _ _) fun _ _ _ => .pure (.expression he)

theorem carries_varDeclaration : Carries L behind F true (Stmt.Like L) varDeclaration
    varDeclaration := by
  refine .took (k := true) (.requireName _) fun name name' hname => ?_
  have last (init init' : Option Expr) (hinit : Option.Rel (Expr.Like L) init init') :
      Carries L behind F true (Stmt.Like L)
        (do let _ ← require .semicolon .afterDeclaration; return .var name init)
        (do let _ ← require .semicolon .afterDeclaration; return .var name' init') :=
    .took (.require _ _) fun _ _ _ => .pure (.var hname hinit)
  refine .accept (fun equals equals' _ => ?_) ?_ (.inl rfl)
  · exact .forget (.before (carries_expression.map fun _ _ he => .some he) last)
  · exact .before (.pure .none) last

theorem carries_forInitializer : Carries L behind False false (Option.Rel (Stmt.Like L))
    forInitializer forInitializer := by
  refine .accept (fun t t' ht => .ite (by rw [ht.is]) (fun _ => ?_) fun _ => .pure .none)
    (.forget (carries_expressionStatement.map fun _ _ hs => .some hs)) (.inr False.elim)
  exact .forget (carries_varDeclaration.map fun _ _ hs => .some hs)

omit [L.Numbered] in
theorem forLoop_like {init init' : Option Stmt} (hi : Option.Rel (Stmt.Like L) init init')
    {test test' step step' : Option Expr} (ht : Option.Rel (Expr.Like L) test test')
    (hs : Option.Rel (Expr.Like L) step step') {body body' : Stmt} (hb : body.Like L body') :
    (forLoop init test step body).Like L (forLoop init' test' step' body') := by
  rw [forLoop_eq, forLoop_eq]
  have hbody : (Ebnf.withIncrement body step).Like L (Ebnf.withIncrement body' step') := by
    cases hs with
    | none => exact hb
    | some he => exact .block (.cons hb (.cons (.expression he) .nil))
  have hloop : (Ebnf.whileTrue (Ebnf.withIncrement body step) test).Like L
      (Ebnf.whileTrue (Ebnf.withIncrement body' step') test') := by
    cases ht with
    | none => exact .while (.literal _) hbody
    | some he => exact .while he hbody
  cases hi with
  | none => exact hloop
  | some h => exact .block (.cons h (.cons hloop .nil))

theorem carries_condition (place : Place) : Carries L behind F true (Expr.Like L) (condition place)
    (condition place) :=
  .took (.require _ _) fun _ _ _ => .before carries_expression fun _ _ he =>
    .took (.require _ _) fun _ _ _ => .pure he

variable {S S' : Rule Stmt} (hS : Carries L behind F true (Stmt.Like L) S S')

include hS

theorem carries_forStatement :
    Carries L behind F true (Stmt.Like L) (forStatement S) (forStatement S') :=
  .took (.require _ _) fun _ _ _ => .before carries_forInitializer fun _ _ hinit =>
    .before (carries_expressionUnless _) fun _ _ htest => .took (.require _ _) fun _ _ _ =>
    .before (carries_expressionUnless _) fun _ _ hstep => .took (.require _ _) fun _ _ _ =>
    .took hS fun _ _ hbody => .pure (forLoop_like hinit htest hstep hbody)

/-- No `else` may follow, which would belong to the statement. -/
theorem carries_ifStatement (hF : F → Stops [.kwElse] behind) :
    Carries L behind F true (Stmt.Like L) (ifStatement S) (ifStatement S') := by
  refine .took (carries_condition _) fun test test' htest =>
    .took (k := false) hS fun thenPart thenPart' hthen => ?_
  refine .accept (fun _ _ _ => .seq hS fun _ _ helse => ?_) (.pure ?_) (.inr hF)
  · exact .pure (.cond htest hthen (.some helse))
  · exact .cond htest hthen .none

end

/-! ## Declarations -/

section

variable {D D' : Rule (Option Stmt)}
  (hD : Carries L behind False false (Option.Rel (Stmt.Like L)) D D')

include hD

theorem carries_declarations : Carries L behind False false (List.Forall₂ (Stmt.Like L))
    (declarations D) (declarations D') := by
  refine .fix (S := List.Forall₂ (Stmt.Like L))
    (fun again again' hagain found found' hfound => ?_) .nil
  refine .sees fun _ => .atEnd fun _ =>
    .ite Iff.rfl (fun _ => .pure (List.rel_reverse hfound)) fun _ => ?_
  refine .seq hD fun s? s?' hs => ?_
  cases hs with
  | none => exact hagain _ _ hfound
  | some hs => exact hagain _ _ (.cons hs hfound)

variable {F : Prop}

theorem carries_block :
    Carries L behind F true (List.Forall₂ (Stmt.Like L)) (block D) (block D') :=
  .before (carries_declarations hD) fun _ _ hbody => .took (.require _ _) fun _ _ _ => .pure hbody

theorem carries_statement (hF : F → Stops [.kwElse] behind) :
    Carries L behind F true (Stmt.Like L) (statement D) (statement D') := by
  refine .fix (S := Eq) (fun again again' hagain u u' _ => ?_) rfl
  have hS := hagain () () rfl
  refine .accept (fun t t' ht => .forget (k := true) ?_) carries_expressionStatement (.inl rfl)
  dsimp only
  rw [ht.kind]
  split
  · exact carries_forStatement hS
  · exact carries_ifStatement hS hF
  · exact .took (carries_condition _) fun _ _ htest => .took hS fun _ _ hbody =>
      .pure (.while htest hbody)
  · exact .before (carries_expressionUnless _) fun _ _ hv => .took (.require _ _) fun _ _ _ =>
      .pure (.ret ht hv)
  · exact .took (carries_block hD) fun _ _ hbody => .pure (.block hbody)
  · exact .before carries_expression fun _ _ he => .took (.require _ _) fun _ _ _ =>
      .pure (.print he)

omit hD [L.Numbered] in
theorem carries_parameters :
    Carries L behind False false (List.Forall₂ (Token.Like L)) parameters parameters := by
  refine .sees fun _ => .ite Iff.rfl (fun _ => .pure .nil) fun _ => ?_
  refine .fix (S := List.Forall₂ (Token.Like L))
    (fun again again' hagain found found' hfound => ?_) .nil
  rw [parametersStep, parametersStep, ← hfound.length_eq]
  refine .limit (.seq (.requireName _) fun t t' ht =>
    .accept (fun comma comma' _ => ?_) ?_ (.inr False.elim))
  · exact hagain _ _ (.cons ht hfound)
  · exact .pure (List.rel_reverse (.cons ht hfound))

theorem carries_function (sort : FunctionSort) :
    Carries L behind F true (FunctionDecl.Like L) (function sort D) (function sort D') :=
  .took (.requireName _) fun _ _ hname => .took (.require _ _) fun _ _ _ =>
    .before carries_parameters fun _ _ hparams => .took (.require _ _) fun _ _ _ =>
    .took (.require _ _) fun _ _ _ => .took (carries_block hD) fun _ _ hbody =>
    .pure (.mk hname hparams hbody)

theorem carries_methods : Carries L behind False false (List.Forall₂ (FunctionDecl.Like L))
    (methods D) (methods D') := by
  refine .fix (S := List.Forall₂ (FunctionDecl.Like L))
    (fun again again' hagain found found' hfound => ?_) .nil
  refine .sees fun _ => .atEnd fun _ =>
    .ite Iff.rfl (fun _ => .pure (List.rel_reverse hfound)) fun _ => ?_
  exact .seq (carries_function hD _) fun _ _ hd => hagain _ _ (.cons hd hfound)

theorem carries_classDeclaration :
    Carries L behind F true (Stmt.Like L) (classDeclaration D) (classDeclaration D') :=
  .took (.requireName _) fun _ _ hname => .took (.require _ _) fun _ _ _ =>
    .before (carries_methods hD) fun _ _ hmethods => .took (.require _ _) fun _ _ _ =>
    .pure (.class hname hmethods)

theorem carries_declared (hF : F → Stops [.kwElse] behind) :
    Carries L behind F true (Stmt.Like L) (declared D) (declared D') := by
  refine .accept (fun t t' ht => .forget (k := true) ?_) (carries_statement hD hF) (.inl rfl)
  dsimp only
  rw [ht.kind]
  split
  · exact carries_classDeclaration hD
  · exact .took (carries_function hD _) fun _ _ hd => .pure (.function hd)
  · exact carries_varDeclaration

end

theorem fromBoundary_suffix (previous : Token) (ts : List Token) :
    fromBoundary previous ts <:+ ts := by
  induction ts generalizing previous with
  | nil => exact List.suffix_rfl
  | cons t rest ih =>
    unfold fromBoundary
    split
    · exact List.suffix_rfl
    · exact (ih t).trans (List.suffix_cons t rest)

theorem Cursor.onward_synchronize (c : Cursor) : c.Onward (synchronize c) := by
  refine ⟨c.reaches_synchronize, ?_⟩
  unfold synchronize
  split
  · exact List.suffix_rfl
  next t rest h =>
    rw [h]
    exact (fromBoundary_suffix t rest).trans (List.suffix_cons t rest)

theorem carries_declaration {F : Prop} (hF : F → Stops [.kwElse] behind) :
    Carries L behind F false (Option.Rel (Stmt.Like L)) declaration declaration := by
  refine .fix (S := Eq) (fun again again' hagain _ _ _ => ?_) rfl
  refine .recover ((carries_declared (hagain () () rfl).inside hF).map fun _ _ hs => .some hs)
    fun e c => ?_
  have hskip := Cursor.onward_synchronize (c.report e)
  exact ⟨(c.onward_report e).trans hskip, hskip.noisy⟩

/-! ## Programs -/

theorem programFrom_nil {c : Cursor} (h : c.rest = []) (found : List Stmt) :
    programFrom found c = .ok found.reverse c := by
  have hend : Rule.atEnd c = .ok c.rest.isEmpty c := rfl
  refine (fix_eq _ _ _).trans ((Carries.bind_of_ok hend).trans ?_)
  rw [if_pos (List.isEmpty_iff.2 h)]
  rfl

theorem programFrom_cons {c : Cursor} (h : c.rest ≠ []) (found : List Stmt) :
    programFrom found c =
      (declaration >>= fun s? => below c.left programFrom (s?.toList ++ found)) c := by
  have hend : Rule.atEnd c = .ok c.rest.isEmpty c := rfl
  refine (fix_eq _ _ _).trans ((Carries.bind_of_ok hend).trans ?_)
  rw [if_neg fun he => h (List.isEmpty_iff.1 he)]
  refine congrArg (fun next => (declaration >>= next) c) (funext fun s? => ?_)
  cases s? <;> rfl

theorem programFrom_reaches (found : List Stmt) (c : Cursor) :
    c.Reaches (cursorOf (programFrom found c)) := by
  refine Sound.reaches (Q := fun _ _ _ => True) ?_ c
  refine .fix (Q := fun _ _ _ _ => True)
    (fun again hagain found => .bind .atEnd fun _ => .ite (fun _ => ?_) fun _ => ?_) found
  · exact .pure fun _ _ _ => trivial
  · refine .bind sound_declaration fun s? => ?_
    cases s? with
    | none => exact (hagain _).weaken fun _ _ _ _ _ _ _ _ => trivial
    | some s => exact (hagain _).weaken fun _ _ _ _ _ _ _ _ => trivial

/-- A program that is read without a report is read as well where no `else` stands behind it, and
then what stands there is read. -/
theorem programFrom_over (hF : Stops [.kwElse] behind) {c d c' : Cursor} {found ss : List Stmt}
    (hd : c.Over L behind d) (hr : programFrom found c = .ok ss c') (hq : c'.errors = c.errors)
    (found' : List Stmt) : ∃ new new' d', ss = found.reverse ++ new ∧
      List.Forall₂ (Stmt.Like L) new new' ∧
      programFrom found' d = programFrom (new'.reverse ++ found') d' ∧ d.Reaches d' ∧
      d'.rest = behind ∧ d'.nextId = c'.nextId ∧ d'.errors = d.errors := by
  induction hn : c.left using Nat.strongRecOn generalizing c d found found' with
  | ind n ih =>
    subst hn
    obtain ⟨us, hus, hlike⟩ := hd.rest
    by_cases hc : c.rest = []
    · rw [programFrom_nil hc] at hr
      cases hr
      rw [hc] at hlike
      cases hlike
      exact ⟨[], [], d, (List.append_nil _).symm, .nil, rfl, .refl d, hus, hd.nextId, rfl⟩
    · rw [programFrom_cons hc] at hr
      obtain ⟨s?, c₁, hs, hr⟩ := Carries.bind_eq_ok hr
      unfold below at hr
      split at hr
      next hlt =>
        have hdecl : Carries L behind True false (Option.Rel (Stmt.Like L)) declaration
          declaration := carries_declaration fun _ => hF
        have hc₁ := (hdecl.onward_ok hs).toReaches
        have hc' : c₁.Reaches c' := by
          have := programFrom_reaches (s?.toList ++ found) c₁
          rwa [hr] at this
        obtain ⟨s?', d₁, hs', herr, hd₁, hlikes⟩ :=
          hdecl.carry hd hs (hc₁.quiet_left hc' hq) (.inr trivial)
        obtain ⟨new, new', d', rfl, hnew, hrest, hreach, hbehind, hid, herr'⟩ :=
          ih c₁.left hlt hd₁ hr (hc₁.quiet_right hc' hq) (s?'.toList ++ found') rfl
        have hd_rest : d.rest ≠ [] := by
          obtain ⟨t, rest, hcons⟩ := List.exists_cons_of_ne_nil hc
          obtain ⟨t', vs, -, -, hcons'⟩ := hd.cons hcons
          rw [hcons']
          exact List.cons_ne_nil _ _
        have hlt' : d₁.left < d.left := by
          rw [hd₁.left, hd.left]
          omega
        have hd₁' : d.Reaches d₁ := (hdecl.onward_ok hs').toReaches
        refine ⟨s?.toList ++ new, s?'.toList ++ new', d', by cases s? <;> simp, ?_, ?_,
          hd₁'.trans hreach, hbehind, hid, herr'.trans herr⟩
        · cases hlikes with
          | none => exact hnew
          | some hlike => exact .cons hlike hnew
        · rw [programFrom_cons hd_rest, Carries.bind_of_ok hs', below, if_pos hlt', hrest]
          cases s?' <;> simp
      next => cases hr

theorem parse_of_ok {tokens : List Token} {firstId : NodeId} {ss : List Stmt} {c : Cursor}
    (h : programFrom [] (Cursor.ofTokens tokens firstId) = .ok ss c) :
    parse tokens firstId = ⟨ss, c.errors.toList, c.failed, c.nextId⟩ := by
  unfold parse program
  rw [h]

theorem ok_of_parse {tokens : List Token} {firstId : NodeId}
    (h : (parse tokens firstId).errors = []) : ∃ c : Cursor,
    programFrom [] (Cursor.ofTokens tokens firstId) = .ok (parse tokens firstId).statements c ∧
      c.errors = #[] ∧ c.nextId = (parse tokens firstId).nextId := by
  unfold parse program at h ⊢
  split at h
  next ss c hok =>
    rw [hok]
    exact ⟨c, rfl, Array.toList_eq_nil_iff.1 h, rfl⟩
  next e c _ =>
    rw [Cursor.report, Array.toList_push] at h
    exact absurd h (List.append_ne_nil_of_right_ne_nil _ (List.cons_ne_nil _ _))

omit [L.Numbered] in
/-- A program does not begin with `else`, on whatever lines it stands. -/
theorem stops_else_parse {second us : List Token} {firstId : NodeId}
    (h : (parse second firstId).errors = [])
    (hus : List.Forall₂ (Token.Like L) (bodyOf second) us) : Stops [.kwElse] us := by
  have hstops := @stops_else_declarations _ _ [] (parse_sound h).1 fun _ _ h => by cases h
  rw [List.append_nil] at hstops
  exact hstops.like hus

/-- The trees of two programs one behind the other are those of the first one and then those of the
second one, which is read with the numbers that come next. -/
theorem parse_append {first second tokens us : List Token} {firstId : NodeId}
    (htokens : bodyOf tokens = bodyOf first ++ us)
    (hus : List.Forall₂ (Token.Like L) (bodyOf second) us)
    (hfirst : (parse first firstId).errors = [])
    (hsecond : (parse second (parse first firstId).nextId).errors = []) :
    (parse tokens firstId).errors = [] ∧
      (parse tokens firstId).nextId = (parse second (parse first firstId).nextId).nextId ∧
      ∃ ss, (parse tokens firstId).statements = (parse first firstId).statements ++ ss ∧
        List.Forall₂ (Stmt.Like L) (parse second (parse first firstId).nextId).statements ss := by
  obtain ⟨c₁, hr₁, hq₁, hid₁⟩ := ok_of_parse hfirst
  obtain ⟨c₂, hr₂, hq₂, hid₂⟩ := ok_of_parse hsecond
  have hover : (Cursor.ofTokens first firstId).Over .same us (Cursor.ofTokens tokens firstId) :=
    ⟨⟨bodyOf first, htokens, Token.allLike_refl _⟩, rfl⟩
  obtain ⟨new, new', d₁, hnew, hlike, hread, -, hrest, hnext, herr⟩ :=
    programFrom_over (stops_else_parse hsecond hus) hover hr₁ hq₁ []
  obtain rfl := Stmt.Like.eq_all Likeness.exact_same hlike
  have hover' : (Cursor.ofTokens second (parse first firstId).nextId).Over L [] d₁ :=
    ⟨⟨us, hrest.trans (List.append_nil us).symm, hus⟩, hnext.trans hid₁⟩
  obtain ⟨ss, ss', d₂, hss, hlike', hread', -, hrest', hnext', herr'⟩ :=
    programFrom_over (fun _ _ h => by cases h) hover' hr₂ hq₂ (new'.reverse ++ [])
  have hjoined := parse_of_ok ((hread.trans hread').trans (programFrom_nil hrest' _))
  rw [hjoined]
  refine ⟨?_, hnext'.trans hid₂, ss', ?_, ?_⟩
  · show d₂.errors.toList = []
    rw [herr', herr]
    rfl
  · rw [hnew]
    simp
  · rw [hss]
    exact hlike'

end Lox.Grammar
