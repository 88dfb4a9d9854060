/-
The same tokens with other numbers. A rule uses the number for the next node
only to put it into a node, so from two cursors that differ in nothing but this
number it goes the same way, through failures and reports too, and what it finds
differs in the numbers alone (`Renumbers`). A program that is numbered from
further on is the same program with all its numbers further on (`parse_moved`).
-/
import Lox.Proofs.Grammar.Append

namespace Lox

/-- Numbers from `first` on stand `k` further on in the other tree, those before it stay. -/
def Likeness.moved (first : NodeId) (k : Nat) : Likeness where
  line t l := l = t.line
  node id id' := id < first ∧ id' = id ∨ first ≤ id ∧ id' = id + k
  line_refl := Likeness.same.line_refl
  line_receiver h := h

namespace Grammar

/-- The same cursor before another number. -/
def Cursor.numbered (c : Cursor) (n : NodeId) : Cursor := { c with nextId := n }

/-- The second cursor differs from the first one in the number for the next node, which is `k`
further on. -/
def Cursor.Renumbered (first : NodeId) (k : Nat) (c d : Cursor) : Prop :=
  first ≤ c.nextId ∧ d = c.numbered (c.nextId + k)

namespace Rule

variable {α β : Type} {first : NodeId} {k : Nat}

/-- The same result in front of another number. -/
def numbered (n : NodeId) : EStateM.Result ParseError Cursor α → EStateM.Result ParseError Cursor α
  | .ok a c => .ok a (c.numbered n)
  | .error e c => .error e (c.numbered n)

/-- The rule neither looks at the number for the next node nor changes it. -/
def Blind (rule : Rule α) : Prop := ∀ c n, rule (c.numbered n) = numbered n (rule c)

/-- Both rules find something, or both fail, and in the same way but for the numbers. -/
inductive Renumbered (first : NodeId) (k : Nat) (R : α → α → Prop) :
    EStateM.Result ParseError Cursor α → EStateM.Result ParseError Cursor α → Prop
  | ok {a a' c d} : R a a' → c.Renumbered first k d → Renumbered first k R (.ok a c) (.ok a' d)
  | error {e c d} : c.Renumbered first k d → Renumbered first k R (.error e c) (.error e d)

/-- From cursors that differ in the number for the next node both rules go the same way. -/
structure Renumbers (first : NodeId) (k : Nat) (R : α → α → Prop) (rule rule' : Rule α) :
    Prop where
  both : ∀ {c d}, c.Renumbered first k d → Renumbered first k R (rule c) (rule' d)

/-! ## Rules without a number -/

theorem blind_report (e : ParseError) : Blind (report e) := fun _ _ => rfl

theorem blind_peek : Blind peek := fun _ _ => rfl

theorem blind_sees (s : Symbol) : Blind (sees s) := fun _ _ => rfl

theorem blind_atEnd : Blind atEnd := fun _ _ => rfl

theorem advance_numbered (c : Cursor) (n : NodeId) :
    (c.numbered n).advance = c.advance.numbered n := by
  obtain ⟨rest, left, eof, nextId, errors, failed, hleft⟩ := c
  cases rest <;> rfl

theorem blind_modify {f : Cursor → Cursor} (h : ∀ c n, f (c.numbered n) = (f c).numbered n) :
    Blind (modify f : Rule Unit) := fun c n => congrArg (EStateM.Result.ok ()) (h c n)

theorem blind_accept? (symbols : List Symbol) : Blind (accept? symbols) := by
  rintro ⟨rest, left, eof, nextId, errors, failed, hleft⟩ n
  cases rest with
  | nil => rfl
  | cons t rest =>
    simp only [accept?, Cursor.numbered]
    split <;> rfl

theorem blind_requireName (of : Named) : Blind (requireName of) := by
  rintro ⟨rest, left, eof, nextId, errors, failed, hleft⟩ n
  cases rest with
  | nil => rfl
  | cons t rest =>
    simp only [requireName, Cursor.numbered]
    split <;> rfl

namespace Renumbers

variable {R : α → α → Prop} {S : β → β → Prop} {rule rule' : Rule α}

theorem of_blind (h : Blind rule) : Renumbers first k Eq rule rule := by
  constructor
  rintro c _ ⟨hfirst, rfl⟩
  have hown := h c c.nextId
  rw [show c.numbered c.nextId = c from rfl] at hown
  rw [h c]
  cases hr : rule c with
  | ok a c' =>
    rw [hr] at hown
    have hnext : c'.nextId = c.nextId := by
      rw [(EStateM.Result.ok.inj hown).2]
      rfl
    exact .ok rfl ⟨hnext ▸ hfirst, by rw [hnext]⟩
  | error e c' =>
    rw [hr] at hown
    have hnext : c'.nextId = c.nextId := by
      rw [(EStateM.Result.error.inj hown).2]
      rfl
    exact .error ⟨hnext ▸ hfirst, by rw [hnext]⟩

theorem pure {a a' : α} (h : R a a') : Renumbers first k R (Pure.pure a) (Pure.pure a') :=
  ⟨fun hd => .ok h hd⟩

theorem fail (fault : ParseFault) : Renumbers first k R (Rule.fail fault) (Rule.fail fault) := by
  constructor
  rintro c _ ⟨hfirst, rfl⟩
  exact .error ⟨hfirst, rfl⟩

theorem freshId : Renumbers first k (Likeness.moved first k).node Rule.freshId Rule.freshId := by
  constructor
  rintro c _ ⟨hfirst, rfl⟩
  refine .ok (.inr ⟨hfirst, rfl⟩) ⟨Nat.le_succ_of_le hfirst, ?_⟩
  exact congrArg c.numbered (Nat.add_right_comm _ k 1)

theorem bind {before before' : Rule β} {next next' : β → Rule α}
    (h : Renumbers first k S before before')
    (hn : ∀ b b', S b b' → Renumbers first k R (next b) (next' b')) :
    Renumbers first k R (before >>= next) (before' >>= next') := by
  refine ⟨fun {c d} hd => ?_⟩
  show Renumbered first k R (EStateM.bind before next c) (EStateM.bind before' next' d)
  unfold EStateM.bind
  have hb := h.both hd
  cases hc : before c with
  | ok b c' =>
    rw [hc] at hb
    cases hd' : before' d with
    | ok b' d' => rw [hd'] at hb; cases hb with | ok hS hd' => exact (hn b b' hS).both hd'
    | error e d' => rw [hd'] at hb; cases hb
  | error e c' =>
    rw [hc] at hb
    cases hd' : before' d with
    | ok b' d' => rw [hd'] at hb; cases hb
    | error e' d' => rw [hd'] at hb; cases hb with | error hd' => exact .error hd'

/-- A rule without a number stands first. -/
theorem after {before : Rule β} (hb : Blind before) {next next' : β → Rule α}
    (hn : ∀ b, Renumbers first k R (next b) (next' b)) :
    Renumbers first k R (before >>= next) (before >>= next') :=
  (of_blind hb).bind fun b _ hbb => hbb ▸ hn b

theorem map {before before' : Rule β} {f f' : β → α} (h : Renumbers first k S before before')
    (hf : ∀ b b', S b b' → R (f b) (f' b')) :
    Renumbers first k R (f <$> before) (f' <$> before') := by
  rw [← bind_pure_comp, ← bind_pure_comp]
  exact h.bind fun b b' hb => .pure (hf b b' hb)

theorem ite {p : Prop} [Decidable p] {other other' : Rule α}
    (h : p → Renumbers first k R rule rule') (h' : ¬ p → Renumbers first k R other other') :
    Renumbers first k R (if p then rule else other) (if p then rule' else other') := by
  split
  next hp => exact h hp
  next hp => exact h' hp

theorem advance {next next' : Unit → Rule α} (hn : Renumbers first k R (next ()) (next' ())) :
    Renumbers first k R (modify Cursor.advance >>= next) (modify Cursor.advance >>= next') :=
  .after (blind_modify advance_numbered) fun _ => hn

theorem require {s : Symbol} {place : Place} {next next' : Token → Rule α}
    (hn : ∀ t, Renumbers first k R (next t) (next' t)) :
    Renumbers first k R (Rule.require s place >>= next) (Rule.require s place >>= next') := by
  refine .bind (S := Eq) (.after (blind_accept? [s]) fun t? => ?_) fun t _ ht => ht ▸ hn t
  cases t? with
  | none => exact .fail _
  | some t => exact .pure rfl

theorem accept {symbols : List Symbol} {next next' : Option Token → Rule α}
    (hsome : ∀ t, Renumbers first k R (next (some t)) (next' (some t)))
    (hnone : Renumbers first k R (next none) (next' none)) :
    Renumbers first k R (Rule.accept? symbols >>= next) (Rule.accept? symbols >>= next') :=
  .after (blind_accept? symbols) fun t? => by
    cases t? with
    | none => exact hnone
    | some t => exact hsome t

/-- A limit that is reported when it is passed. -/
theorem limit {n : Nat} {fault : ParseFault} {next next' : Unit → Rule α}
    (hn : Renumbers first k R (next ()) (next' ())) :
    Renumbers first k R
      (if maxArity ≤ n then Rule.peek >>= fun t => Rule.report ⟨t, fault⟩ >>= next else next ())
      (if maxArity ≤ n then Rule.peek >>= fun t => Rule.report ⟨t, fault⟩ >>= next'
        else next' ()) :=
  .ite (fun _ => .after blind_peek fun t => .after (blind_report ⟨t, fault⟩) fun _ => hn)
    fun _ => hn

theorem recover {handler handler' : ParseError → Rule α} (h : Renumbers first k R rule rule')
    (hh : ∀ e, Renumbers first k R (handler e) (handler' e)) :
    Renumbers first k R (Rule.recover rule handler) (Rule.recover rule' handler') := by
  refine ⟨fun {c d} hd => ?_⟩
  have hr := h.both hd
  unfold Rule.recover
  cases hc : rule c with
  | ok a c' =>
    rw [hc] at hr
    cases hd' : rule' d with
    | ok a' d' => rw [hd'] at hr; exact hr
    | error e d' => rw [hd'] at hr; cases hr
  | error e c' =>
    rw [hc] at hr
    cases hd' : rule' d with
    | ok a' d' => rw [hd'] at hr; cases hr
    | error e' d' => rw [hd'] at hr; cases hr with | error hd' => exact (hh e).both hd'

/-! ## Rules that use themselves -/

variable {body body' : (β → Rule α) → β → Rule α}

theorem below_fix (h : ∀ again again',
      (∀ b b', S b b' → Renumbers first k R (again b) (again' b')) →
      ∀ b b', S b b' → Renumbers first k R (body again b) (body' again' b')) (n : Nat) :
    ∀ b b', S b b' → Renumbers first k R (below n (Rule.fix body) b)
      (below n (Rule.fix body') b') := by
  induction n using Nat.strongRecOn with
  | ind n ih =>
    refine fun b b' hb => ⟨?_⟩
    rintro c _ ⟨hfirst, rfl⟩
    show Renumbered first k R (if c.left < n then Rule.fix body b c else stuck c)
      (if c.left < n then Rule.fix body' b' _ else stuck _)
    split
    next hc =>
      rw [fix_eq, fix_eq]
      exact (h _ _ (ih c.left hc) b b' hb).both ⟨hfirst, rfl⟩
    next => exact (Renumbers.fail _).both ⟨hfirst, rfl⟩

/-- A rule goes the same way if its body does, whenever the uses of itself in it do. -/
theorem fix (h : ∀ again again',
      (∀ b b', S b b' → Renumbers first k R (again b) (again' b')) →
      ∀ b b', S b b' → Renumbers first k R (body again b) (body' again' b'))
    {b b' : β} (hb : S b b') : Renumbers first k R (Rule.fix body b) (Rule.fix body' b') := by
  constructor
  rintro c _ ⟨hfirst, rfl⟩
  rw [fix_eq, fix_eq]
  exact (h _ _ (below_fix h c.left) b b' hb).both ⟨hfirst, rfl⟩

end Renumbers

end Rule

open Rule

variable {first : NodeId} {k : Nat}

/-! ## Expressions -/

section

variable {E E' : Rule Expr} (hE : Renumbers first k (Expr.Like (.moved first k)) E E')

include hE

theorem renumbers_primary :
    Renumbers first k (Expr.Like (.moved first k)) (primary E) (primary E') := by
  refine .after blind_peek fun t => ?_
  split
  · exact .advance (.pure (.literal _))
  · exact .advance (.pure (.literal _))
  · exact .advance (.pure (.literal _))
  · exact .advance (.pure (.literal _))
  · exact .advance (.pure (.literal _))
  · exact .advance (.bind .freshId fun _ _ hid => .pure (.this hid t.like_refl))
  · exact .advance (.bind .freshId fun _ _ hid => .pure (.variable hid t.like_refl))
  · exact .advance (.bind hE fun _ _ he => .require fun _ => .pure (.grouping he))
  · exact .fail _

theorem renumbers_arguments : Renumbers first k (List.Forall₂ (Expr.Like (.moved first k)))
    (arguments E) (arguments E') := by
  refine .after (blind_sees _) fun b => .ite (fun _ => .pure .nil) fun _ => ?_
  refine .fix (S := List.Forall₂ (Expr.Like (.moved first k)))
    (fun again again' hagain found found' hfound => ?_) .nil
  rw [argumentsStep, argumentsStep, ← hfound.length_eq]
  refine .limit (.bind hE fun e e' he => .accept (fun _ => ?_) ?_)
  · exact hagain _ _ (.cons he hfound)
  · exact .pure (List.rel_reverse (.cons he hfound))

theorem renumbers_call : Renumbers first k (Expr.Like (.moved first k)) (call E) (call E') := by
  refine .bind (renumbers_primary hE) fun e e' he =>
    .fix (S := Expr.Like (.moved first k)) (fun again again' hagain callee callee' hc => ?_) he
  refine .accept (fun t => .ite (fun _ => ?_) fun _ => ?_) (.pure hc)
  · exact .bind (renumbers_arguments hE) fun _ _ hargs => .require fun paren =>
      hagain _ _ (.call hc paren.like_refl hargs)
  · exact .after (blind_requireName _) fun name => hagain _ _ (.get hc name.like_refl)

theorem renumbers_unary : Renumbers first k (Expr.Like (.moved first k)) (unary E) (unary E') := by
  refine .fix (S := Eq) (fun again again' hagain u u' hu => ?_) rfl
  refine .accept (fun op => ?_) (renumbers_call hE)
  exact .bind (hagain () () rfl) fun _ _ he => .pure (.unary op.like_refl he)

omit hE in
theorem renumbers_chain {level : Level} (hnode : ∀ {left left' op right right'},
      left.Like (.moved first k) left' → right.Like (.moved first k) right' →
      (level.node left op right).Like (.moved first k) (level.node left' op right'))
    {operand operand' : Rule Expr}
    (h : Renumbers first k (Expr.Like (.moved first k)) operand operand') :
    Renumbers first k (Expr.Like (.moved first k)) (chain level operand) (chain level operand') := by
  refine .bind h fun e e' he => .fix (S := Expr.Like (.moved first k))
    (fun again again' hagain left left' hleft => ?_) he
  refine .accept (fun op => ?_) (.pure hleft)
  exact .bind h fun _ _ hright => hagain _ _ (hnode hleft hright)

theorem renumbers_operation :
    Renumbers first k (Expr.Like (.moved first k)) (operation E) (operation E') := by
  have logical {operators : List Symbol} {operand operand' : Rule Expr}
      (h : Renumbers first k (Expr.Like (.moved first k)) operand operand') :
      Renumbers first k (Expr.Like (.moved first k)) (chain ⟨operators, .logical⟩ operand)
        (chain ⟨operators, .logical⟩ operand') :=
    renumbers_chain (fun hl hr => .logical hl (Token.like_refl _) hr) h
  have binary {operators : List Symbol} {operand operand' : Rule Expr}
      (h : Renumbers first k (Expr.Like (.moved first k)) operand operand') :
      Renumbers first k (Expr.Like (.moved first k)) (chain ⟨operators, .binary⟩ operand)
        (chain ⟨operators, .binary⟩ operand') :=
    renumbers_chain (fun hl hr => .binary hl (Token.like_refl _) hr) h
  exact logical (logical (binary (binary (binary (binary (renumbers_unary hE))))))

theorem renumbers_assignment :
    Renumbers first k (Expr.Like (.moved first k)) (assignment E) (assignment E') := by
  refine .bind (renumbers_operation hE) fun target target' ht =>
    .accept (fun equals => .bind hE fun value value' hv => ?_) (.pure ht)
  have reported : Renumbers first k (Expr.Like (.moved first k))
      (do report ⟨equals, .invalidTarget⟩; return target)
      (do report ⟨equals, .invalidTarget⟩; return target') :=
    .after (blind_report _) fun _ => .pure ht
  cases ht with
  | «variable» _ hname => exact .bind .freshId fun _ _ hid => .pure (.assign hid hname hv)
  | get hobject hname => exact .pure (.set hobject hname hv)
  | _ => exact reported

end

theorem renumbers_expression :
    Renumbers first k (Expr.Like (.moved first k)) expression expression :=
  .fix (S := Eq) (fun _ _ hagain _ _ _ => renumbers_assignment (hagain () () rfl)) rfl

/-! ## Statements -/

theorem renumbers_expressionUnless (s : Symbol) : Renumbers first k
    (Option.Rel (Expr.Like (.moved first k))) (expressionUnless s) (expressionUnless s) :=
  .after (blind_sees s) fun _ => .ite (fun _ => .pure .none) fun _ =>
    .bind renumbers_expression fun _ _ he => .pure (.some he)

theorem renumbers_expressionStatement : Renumbers first k (Stmt.Like (.moved first k))
    expressionStatement expressionStatement :=
  .bind renumbers_expression fun _ _ he => .require fun _ => .pure (.expression he)

theorem renumbers_varDeclaration : Renumbers first k (Stmt.Like (.moved first k))
    varDeclaration varDeclaration := by
  refine .after (blind_requireName _) fun name => ?_
  have last (init init' : Option Expr) (hinit : Option.Rel (Expr.Like (.moved first k)) init init') :
      Renumbers first k (Stmt.Like (.moved first k))
        (do let _ ← require .semicolon .afterDeclaration; return .var name init)
        (do let _ ← require .semicolon .afterDeclaration; return .var name init') :=
    .require fun _ => .pure (.var name.like_refl hinit)
  refine .accept (fun _ => ?_) ?_
  · exact .bind (renumbers_expression.map fun _ _ he => .some he) last
  · exact .bind (.pure .none) last

theorem renumbers_forInitializer : Renumbers first k (Option.Rel (Stmt.Like (.moved first k)))
    forInitializer forInitializer := by
  refine .accept (fun t => .ite (fun _ => ?_) fun _ => .pure .none)
    (renumbers_expressionStatement.map fun _ _ hs => .some hs)
  exact renumbers_varDeclaration.map fun _ _ hs => .some hs

theorem renumbers_condition (place : Place) : Renumbers first k (Expr.Like (.moved first k))
    (condition place) (condition place) :=
  .require fun _ => .bind renumbers_expression fun _ _ he => .require fun _ => .pure he

theorem renumbers_forStatement {S S' : Rule Stmt}
    (hS : Renumbers first k (Stmt.Like (.moved first k)) S S') :
    Renumbers first k (Stmt.Like (.moved first k)) (forStatement S) (forStatement S') :=
  .require fun _ => .bind renumbers_forInitializer fun _ _ hinit =>
    .bind (renumbers_expressionUnless _) fun _ _ htest => .require fun _ =>
    .bind (renumbers_expressionUnless _) fun _ _ hstep => .require fun _ =>
    .bind hS fun _ _ hbody => .pure (forLoop_like hinit htest hstep hbody)

theorem renumbers_ifStatement {S S' : Rule Stmt}
    (hS : Renumbers first k (Stmt.Like (.moved first k)) S S') :
    Renumbers first k (Stmt.Like (.moved first k)) (ifStatement S) (ifStatement S') := by
  refine .bind (renumbers_condition _) fun test test' htest =>
    .bind hS fun thenPart thenPart' hthen => ?_
  refine .accept (fun _ => .bind hS fun _ _ helse => .pure ?_) (.pure ?_)
  · exact .cond htest hthen (.some helse)
  · exact .cond htest hthen .none

/-! ## Declarations -/

section

variable {D D' : Rule (Option Stmt)}
  (hD : Renumbers first k (Option.Rel (Stmt.Like (.moved first k))) D D')

include hD

theorem renumbers_declarations : Renumbers first k (List.Forall₂ (Stmt.Like (.moved first k)))
    (declarations D) (declarations D') := by
  refine .fix (S := List.Forall₂ (Stmt.Like (.moved first k)))
    (fun again again' hagain found found' hfound => ?_) .nil
  refine .after (blind_sees _) fun _ => .after blind_atEnd fun _ =>
    .ite (fun _ => .pure (List.rel_reverse hfound)) fun _ => .bind hD fun s? s?' hs => ?_
  cases hs with
  | none => exact hagain _ _ hfound
  | some hs => exact hagain _ _ (.cons hs hfound)

theorem renumbers_block : Renumbers first k (List.Forall₂ (Stmt.Like (.moved first k)))
    (block D) (block D') :=
  .bind (renumbers_declarations hD) fun _ _ hbody => .require fun _ => .pure hbody

theorem renumbers_statement :
    Renumbers first k (Stmt.Like (.moved first k)) (statement D) (statement D') := by
  refine .fix (S := Eq) (fun again again' hagain u u' _ => ?_) rfl
  have hS := hagain () () rfl
  refine .accept (fun t => ?_) renumbers_expressionStatement
  dsimp only
  split
  · exact renumbers_forStatement hS
  · exact renumbers_ifStatement hS
  · exact .bind (renumbers_condition _) fun _ _ htest => .bind hS fun _ _ hbody =>
      .pure (.while htest hbody)
  · exact .bind (renumbers_expressionUnless _) fun _ _ hv => .require fun _ =>
      .pure (.ret t.like_refl hv)
  · exact .bind (renumbers_block hD) fun _ _ hbody => .pure (.block hbody)
  · exact .bind renumbers_expression fun _ _ he => .require fun _ => .pure (.print he)

omit hD in
theorem renumbers_parameters : Renumbers first k Eq parameters parameters := by
  refine .after (blind_sees _) fun _ => .ite (fun _ => .pure rfl) fun _ => ?_
  refine .fix (S := Eq) (fun again again' hagain found found' hfound => ?_) rfl
  subst hfound
  rw [parametersStep, parametersStep]
  refine .limit (.after (blind_requireName _) fun t => .accept (fun _ => ?_) (.pure rfl))
  exact hagain _ _ rfl

theorem renumbers_function (sort : FunctionSort) :
    Renumbers first k (FunctionDecl.Like (.moved first k)) (function sort D) (function sort D') :=
  .after (blind_requireName _) fun name => .require fun _ =>
    .bind renumbers_parameters fun params _ hparams => .require fun _ => .require fun _ =>
    .bind (renumbers_block hD) fun _ _ hbody =>
    .pure (.mk name.like_refl (hparams ▸ Token.allLike_refl params) hbody)

theorem renumbers_methods : Renumbers first k (List.Forall₂ (FunctionDecl.Like (.moved first k)))
    (methods D) (methods D') := by
  refine .fix (S := List.Forall₂ (FunctionDecl.Like (.moved first k)))
    (fun again again' hagain found found' hfound => ?_) .nil
  refine .after (blind_sees _) fun _ => .after blind_atEnd fun _ =>
    .ite (fun _ => .pure (List.rel_reverse hfound)) fun _ => ?_
  exact .bind (renumbers_function hD _) fun _ _ hd => hagain _ _ (.cons hd hfound)

theorem renumbers_classDeclaration :
    Renumbers first k (Stmt.Like (.moved first k)) (classDeclaration D) (classDeclaration D') :=
  .after (blind_requireName _) fun name => .require fun _ =>
    .bind (renumbers_methods hD) fun _ _ hmethods => .require fun _ =>
    .pure (.class name.like_refl hmethods)

theorem renumbers_declared :
    Renumbers first k (Stmt.Like (.moved first k)) (declared D) (declared D') := by
  refine .accept (fun t => ?_) (renumbers_statement hD)
  dsimp only
  split
  · exact renumbers_classDeclaration hD
  · exact .bind (renumbers_function hD _) fun _ _ hd => .pure (.function hd)
  · exact renumbers_varDeclaration

end

theorem synchronize_numbered (c : Cursor) (n : NodeId) :
    synchronize (c.numbered n) = (synchronize c).numbered n := by
  obtain ⟨rest, left, eof, nextId, errors, failed, hleft⟩ := c
  cases rest <;> rfl

/-- What fails is reported and skipped in the same way. -/
theorem renumbers_declaration : Renumbers first k (Option.Rel (Stmt.Like (.moved first k)))
    declaration declaration := by
  refine .fix (S := Eq) (fun again again' hagain _ _ _ => ?_) rfl
  refine .recover ((renumbers_declared (hagain () () rfl)).map fun _ _ hs => .some hs) fun e => ?_
  exact .after (blind_report e) fun _ =>
    .after (blind_modify synchronize_numbered) fun _ => .pure .none

/-! ## Programs -/

theorem renumbers_program : Renumbers first k (List.Forall₂ (Stmt.Like (.moved first k)))
    program program := by
  refine .fix (S := List.Forall₂ (Stmt.Like (.moved first k)))
    (fun again again' hagain found found' hfound => ?_) .nil
  refine .after blind_atEnd fun _ => .ite (fun _ => .pure (List.rel_reverse hfound)) fun _ =>
    .bind renumbers_declaration fun s? s?' hs => ?_
  cases hs with
  | none => exact hagain _ _ hfound
  | some hs => exact hagain _ _ (.cons hs hfound)

/-- Programs that differ in nothing but the numbers of their nodes, of which those from `first` on
stand `k` further on. -/
structure Parsed.Moved (first : NodeId) (k : Nat) (p p' : Parsed) : Prop where
  statements : List.Forall₂ (Stmt.Like (.moved first k)) p.statements p'.statements
  errors : p'.errors = p.errors
  failed : p'.failed = p.failed
  nextId : p'.nextId = p.nextId + k

/-- Tokens that are numbered from further on are read as the same program, with the same errors. -/
theorem parse_moved (tokens : List Token) {firstId : NodeId} (h : first ≤ firstId) (k : Nat) :
    (parse tokens firstId).Moved first k (parse tokens (firstId + k)) := by
  have hd : (Cursor.ofTokens tokens firstId).Renumbered first k
      (Cursor.ofTokens tokens (firstId + k)) := ⟨h, rfl⟩
  have hr := renumbers_program.both hd
  unfold parse
  cases hc : program (Cursor.ofTokens tokens firstId) with
  | ok ss c =>
    rw [hc] at hr
    cases hc' : program (Cursor.ofTokens tokens (firstId + k)) with
    | ok ss' d =>
      rw [hc'] at hr
      cases hr with
      | ok hss hd => obtain ⟨-, rfl⟩ := hd; exact ⟨hss, rfl, rfl, rfl⟩
    | error e d => rw [hc'] at hr; cases hr
  | error e c =>
    rw [hc] at hr
    cases hc' : program (Cursor.ofTokens tokens (firstId + k)) with
    | ok ss' d => rw [hc'] at hr; cases hr
    | error e' d =>
      rw [hc'] at hr
      cases hr with
      | error hd => obtain ⟨-, rfl⟩ := hd; exact ⟨.nil, rfl, rfl, rfl⟩

end Grammar

end Lox
