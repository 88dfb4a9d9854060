/-
Reading goes on and ends. Every rule of the grammar leaves the cursor where it
was or further on, and each that uses itself does so only behind a token that it
took (`Recursion.ends`); a declaration takes a token even where it fails
(`declaration_takes`). So tokens are read as a program in finitely many levels
of rules, none behind the first end is looked at, and none behind it counts
(`parse_ends`).
-/
import Lox.Proofs.Grammar.Agree
import Lox.Proofs.Grammar.Append
import Mathlib.Data.List.TakeWhile

namespace Lox.Grammar

open Rule

variable {n : Nat}

/-! ## Expressions -/

section

variable {E E' : Rule Expr}

theorem agrees_primary (hE : Agrees (n - 1) .always E E') :
    Agrees n .always (primary E) (primary E') := by
  have constant (e : Expr) : Agrees (n - 1) .never (pure e : Rule Expr) (pure e) := .pure e
  refine .token (fun t ht => ?_) fun t => ?_
  · unfold Token.isEof at ht
    split at ht
    next hk => rw [hk]; exact ⟨_, rfl, rfl⟩
    next => cases ht
  · split
    · exact .inr ⟨_, _, rfl, rfl, constant _⟩
    · exact .inr ⟨_, _, rfl, rfl, constant _⟩
    · exact .inr ⟨_, _, rfl, rfl, constant _⟩
    · exact .inr ⟨_, _, rfl, rfl, constant _⟩
    · exact .inr ⟨_, _, rfl, rfl, constant _⟩
    · exact .inr ⟨_, _, rfl, rfl, .freshId fun _ => .pure _⟩
    · exact .inr ⟨_, _, rfl, rfl, .freshId fun _ => .pure _⟩
    · exact .inr ⟨_, _, rfl, rfl, .seq hE fun _ => .seq (.require _ _) fun _ => .pure _⟩
    · exact .inl ⟨_, rfl, rfl⟩

theorem agrees_argumentsStep (hE : Agrees n .always E E') {again again' : List Expr → Rule (List Expr)}
    (hagain : ∀ found, Agrees (n - 1) .always (again found) (again' found)) (found : List Expr) :
    Agrees n .always (argumentsStep E again found) (argumentsStep E' again' found) := by
  unfold argumentsStep
  refine .limit (.took hE fun e => .accept (fun _ => ?_) (.pure _))
  exact ((hagain _).mono (Nat.sub_le ..)).forget

theorem agrees_arguments (hE : Agrees n .always E E') :
    Agrees n .never (arguments E) (arguments E') :=
  .sees fun _ => .ite (.pure _) (.forget (.fix (fun _ hm _ _ hagain =>
    agrees_argumentsStep (hE.mono hm) hagain) []))

theorem agrees_callStep (hE : Agrees (n - 1) .always E E') {again again' : Expr → Rule Expr}
    (hagain : ∀ callee, Agrees (n - 1) .never (again callee) (again' callee)) (callee : Expr) :
    Agrees n .never (callStep E again callee) (callStep E' again' callee) := by
  refine .accept (fun t => .ite ?_ ?_) (.pure _)
  · exact .seq (agrees_arguments hE) fun _ => .seq (.require _ _) fun _ => hagain _
  · exact .seq (.requireName _) fun _ => hagain _

theorem agrees_call (hE : Agrees (n - 1) .always E E') :
    Agrees n .always (call E) (call E') :=
  .took (agrees_primary hE) fun e => .mono (.fix (fun _ hm _ _ hagain =>
    agrees_callStep (hE.mono (Nat.le_pred_of_lt hm)) hagain) e) (Nat.sub_le ..)

theorem agrees_unaryStep (hE : Agrees (n - 1) .always E E') {again again' : Unit → Rule Expr}
    (hagain : ∀ u, Agrees (n - 1) .always (again u) (again' u)) (u : Unit) :
    Agrees n .always (unaryStep E again u) (unaryStep E' again' u) :=
  .accept (fun _ => .seq (hagain ()) fun _ => .pure _) (agrees_call hE)

theorem agrees_unary (hE : Agrees (n - 1) .always E E') :
    Agrees n .always (unary E) (unary E') :=
  .fix (fun _ hm _ _ hagain => agrees_unaryStep (hE.mono (Nat.le_pred_of_lt hm)) hagain) ()

theorem agrees_chainStep (level : Level) {operand operand' : Rule Expr}
    (h : Agrees (n - 1) .always operand operand') {again again' : Expr → Rule Expr}
    (hagain : ∀ left, Agrees (n - 1) .never (again left) (again' left)) (left : Expr) :
    Agrees n .never (chainStep level operand again left) (chainStep level operand' again' left) :=
  .accept (fun _ => .seq h fun _ => hagain _) (.pure _)

theorem agrees_chain (level : Level) {operand operand' : Rule Expr}
    (h : Agrees n .always operand operand') :
    Agrees n .always (chain level operand) (chain level operand') :=
  .took h fun e => .mono (.fix (fun _ hm _ _ hagain =>
    agrees_chainStep level (h.mono (Nat.le_of_lt hm)) hagain) e) (Nat.sub_le ..)

theorem agrees_levels (ls : List Level) (hE : Agrees (n - 1) .always E E') :
    Agrees n .always (ls.foldr chain (unary E)) (ls.foldr chain (unary E')) := by
  induction ls with
  | nil => exact agrees_unary hE
  | cons level rest ih => exact agrees_chain level ih

theorem agrees_assignment (hE : Agrees (n - 1) .always E E') :
    Agrees n .always (assignment E) (assignment E') := by
  refine .took (agrees_levels levels hE) fun target => .accept (fun equals => ?_) (.pure _)
  refine .seq (hE.mono (Nat.sub_le ..)) fun value => ?_
  have reported : Agrees (n - 1 - 1) .never
      (do report ⟨equals, .invalidTarget⟩; return target)
      (do report ⟨equals, .invalidTarget⟩; return target) := .report (.pure _)
  cases target with
  | «variable» => exact .freshId fun _ => .pure _
  | get => exact .pure _
  | _ => exact reported

end

theorem agrees_expression : Agrees n .always expression expression :=
  .fix (fun _ _ _ _ hagain _ => agrees_assignment (hagain ())) ()

/-! ## Statements -/

theorem agrees_expressionUnless (s : Symbol) :
    Agrees n .never (expressionUnless s) (expressionUnless s) :=
  .sees fun _ => .ite (.pure _) (.seq agrees_expression fun _ => .pure _)

theorem agrees_expressionStatement : Agrees n .always expressionStatement expressionStatement :=
  .took agrees_expression fun _ => .seq (.require _ _) fun _ => .pure _

theorem agrees_varDeclaration : Agrees n .always varDeclaration varDeclaration :=
  .took (.requireName _) fun _ => .accept
    (fun _ => .seq (.map agrees_expression) fun _ => .seq (.require _ _) fun _ => .pure _)
    (.seq (.pure _) fun _ => .seq (.require _ _) fun _ => .pure _)

theorem agrees_forInitializer : Agrees n .never forInitializer forInitializer :=
  .accept (fun _ => .ite (.forget (.map agrees_varDeclaration)) (.pure _))
    (.forget (.map agrees_expressionStatement))

theorem agrees_condition (place : Place) : Agrees n .always (condition place) (condition place) :=
  .took (.require _ _) fun _ => .seq agrees_expression fun _ => .seq (.require _ _) fun _ => .pure _

section

variable {S S' : Rule Stmt} (hS : Agrees (n - 1) .always S S')

include hS

theorem agrees_forStatement : Agrees n .always (forStatement S) (forStatement S') :=
  .took (.require _ _) fun _ => .seq agrees_forInitializer fun _ =>
    .seq (agrees_expressionUnless _) fun _ => .seq (.require _ _) fun _ =>
    .seq (agrees_expressionUnless _) fun _ => .seq (.require _ _) fun _ =>
    .seq hS fun _ => .pure _

theorem agrees_ifStatement : Agrees n .always (ifStatement S) (ifStatement S') :=
  .took (agrees_condition _) fun _ => .seq hS fun _ =>
    .accept (fun _ => .seq (hS.mono (Nat.sub_le ..)) fun _ => .pure _) (.pure _)

end

/-! ## Declarations -/

section

variable {D D' : Rule (Option Stmt)}

/-- Declarations go on only where a token is ahead, which the next one takes. -/
theorem agrees_declarationsStep (hD : Agrees n .ahead D D')
    {again again' : List Stmt → Rule (List Stmt)}
    (hagain : ∀ found, Agrees (n - 1) .never (again found) (again' found)) (found : List Stmt) :
    Agrees n .never (declarationsStep D again found) (declarationsStep D' again' found) := by
  refine .sees fun brace => .atEnd ?_ fun {c} hc hrest => ?_
  · rw [Bool.or_true]
    exact .pure _
  · cases brace with
    | true => exact (Agrees.pure _).under hc
    | false =>
      refine hD.tookAhead (fun s? => ?_) hc hrest
      cases s? with
      | none => exact hagain _
      | some s => exact hagain _

theorem agrees_block (hD : Agrees n .ahead D D') : Agrees n .never (block D) (block D') :=
  .seq (.fix (fun _ hm _ _ hagain => agrees_declarationsStep (hD.mono hm) hagain) []) fun _ =>
    .seq (.require _ _) fun _ => .pure _

theorem agrees_statementStep (hD : Agrees (n - 1) .ahead D D') {again again' : Unit → Rule Stmt}
    (hagain : ∀ u, Agrees (n - 1) .always (again u) (again' u)) (u : Unit) :
    Agrees n .always (statementStep D again u) (statementStep D' again' u) := by
  have hS := (hagain ()).mono (Nat.sub_le (n - 1) 1)
  refine .accept (fun t => ?_) agrees_expressionStatement
  dsimp only
  split
  · exact .forget (agrees_forStatement hS)
  · exact .forget (agrees_ifStatement hS)
  · exact .seq (agrees_condition _) fun _ => .seq (hagain ()) fun _ => .pure _
  · exact .seq (agrees_expressionUnless _) fun _ => .seq (.require _ _) fun _ => .pure _
  · exact .seq (agrees_block hD) fun _ => .pure _
  · exact .seq agrees_expression fun _ => .seq (.require _ _) fun _ => .pure _

theorem agrees_statement (hD : Agrees (n - 1) .ahead D D') :
    Agrees n .always (statement D) (statement D') :=
  .fix (fun _ hm _ _ hagain => agrees_statementStep (hD.mono (Nat.le_pred_of_lt hm)) hagain) ()

theorem agrees_parametersStep {again again' : List Token → Rule (List Token)}
    (hagain : ∀ found, Agrees (n - 1) .always (again found) (again' found)) (found : List Token) :
    Agrees n .always (parametersStep again found) (parametersStep again' found) := by
  unfold parametersStep
  refine .limit (.took (.requireName _) fun e => .accept (fun _ => ?_) (.pure _))
  exact ((hagain _).mono (Nat.sub_le ..)).forget

theorem agrees_parameters : Agrees n .never parameters parameters :=
  .sees fun _ => .ite (.pure _) (.forget (.fix (fun _ _ _ _ hagain =>
    agrees_parametersStep hagain) []))

theorem agrees_function (sort : FunctionSort) (hD : Agrees (n - 1) .ahead D D') :
    Agrees n .always (function sort D) (function sort D') :=
  .took (.requireName _) fun _ => .seq (.require _ _) fun _ => .seq agrees_parameters fun _ =>
    .seq (.require _ _) fun _ => .seq (.require _ _) fun _ => .seq (agrees_block hD) fun _ =>
    .pure _

theorem agrees_methodsStep (hD : Agrees (n - 1) .ahead D D')
    {again again' : List FunctionDecl → Rule (List FunctionDecl)}
    (hagain : ∀ found, Agrees (n - 1) .never (again found) (again' found))
    (found : List FunctionDecl) :
    Agrees n .never (methodsStep D again found) (methodsStep D' again' found) :=
  .sees fun _ => .look (·.rest.isEmpty) fun _ => .ite (.pure _)
    (.took (agrees_function _ hD) fun _ => hagain _)

theorem agrees_classDeclaration (hD : Agrees (n - 1) .ahead D D') :
    Agrees n .always (classDeclaration D) (classDeclaration D') :=
  .took (.requireName _) fun _ => .seq (.require _ _) fun _ =>
    .seq (.fix (fun _ hm _ _ hagain => agrees_methodsStep (hD.mono (Nat.le_of_lt hm)) hagain) [])
      fun _ => .seq (.require _ _) fun _ => .pure _

theorem agrees_declared (hD : Agrees (n - 1) .ahead D D') :
    Agrees n .always (declared D) (declared D') := by
  have hD' := hD.mono (Nat.sub_le (n - 1) 1)
  refine .accept (fun t => ?_) (agrees_statement hD)
  dsimp only
  split
  · exact .forget (agrees_classDeclaration hD')
  · exact .seq (agrees_function _ hD') fun _ => .pure _
  · exact .forget agrees_varDeclaration

end

/-- Where something is ahead, a token is skipped. -/
theorem synchronize_left {c : Cursor} (h : c.rest ≠ []) : (synchronize c).left < c.left := by
  unfold synchronize
  split
  next hnil => exact absurd hnil h
  next t rest hcons =>
    rw [c.left_eq, hcons]
    exact Nat.lt_succ_of_le (fromBoundary_suffix t rest).length_le

/-- A declaration that fails takes a token too. -/
theorem agrees_declarationStep {again again' : Unit → Rule (Option Stmt)}
    (hagain : ∀ u, Agrees (n - 1) .ahead (again u) (again' u)) (u : Unit) :
    Agrees n .ahead (declarationStep again u) (declarationStep again' u) := by
  refine ⟨fun {c} hc => ?_⟩
  have h := (Agrees.map (f := some) (agrees_declared (hagain ()))).under hc
  have honward := h.onward
  have hfail (again : Unit → Rule (Option Stmt)) {e : ParseError} {d : Cursor}
      (hr : (some <$> declared (again ())) c = .error e d) :
      declarationStep again u c = .ok none (synchronize (d.report e)) := by
    unfold declarationStep recover
    rw [hr]
    rfl
  have hok (again : Unit → Rule (Option Stmt)) {s? : Option Stmt} {d : Cursor}
      (hr : (some <$> declared (again ())) c = .ok s? d) : declarationStep again u c = .ok s? d := by
    unfold declarationStep recover
    rw [hr]
  cases hr : (some <$> declared (again ())) c with
  | ok s? d =>
    rw [hr] at honward
    refine ⟨by rw [hok again hr, hok again' (h.same.trans hr)], ?_, fun _ s?' d' hd => ?_⟩
    · rwa [hok again hr]
    · rw [hok again hr] at hd
      cases hd
      exact h.takes trivial hr
  | error e d =>
    rw [hr] at honward
    refine ⟨by rw [hfail again hr, hfail again' (h.same.trans hr)], ?_, fun hrest s? d' hd => ?_⟩
    · rw [hfail again hr]
      exact honward.trans ((d.onward_report e).trans (d.report e).onward_synchronize)
    · rw [hfail again hr] at hd
      cases hd
      by_cases hnil : d.rest = []
      · have hend := ((d.report e).onward_synchronize).left_le
        have hd : d.left = 0 := Cursor.left_eq_zero.2 hnil
        have hc : c.left ≠ 0 := fun h0 => hrest (Cursor.left_eq_zero.1 h0)
        have : (d.report e).left = d.left := rfl
        omega
      · exact Nat.lt_of_lt_of_le (synchronize_left (c := d.report e) hnil) honward.left_le

theorem agrees_declaration : Agrees n .ahead declaration declaration :=
  .fix (fun _ _ _ _ hagain => agrees_declarationStep hagain) ()

theorem agrees_programStep {again again' : List Stmt → Rule (List Stmt)}
    (hagain : ∀ found, Agrees (n - 1) .never (again found) (again' found)) (found : List Stmt) :
    Agrees n .never (programStep again found) (programStep again' found) := by
  refine .atEnd (.pure _) fun hc hrest => agrees_declaration.tookAhead (fun s? => ?_) hc hrest
  cases s? with
  | none => exact hagain _
  | some s => exact hagain _

/-! ## All rules -/

/-- What the rules that use themselves say in terms of themselves. -/
inductive Recursion : {α β : Type} → ((β → Rule α) → β → Rule α) → Prop
  | arguments : Recursion (argumentsStep expression)
  | call : Recursion (callStep expression)
  | unary : Recursion (unaryStep expression)
  | chain {level : Level} {tighter : List Level} : level :: tighter <:+ levels →
    Recursion (chainStep level (tighter.foldr chain (unary expression)))
  | expression : Recursion expressionStep
  | declarations : Recursion (declarationsStep declaration)
  | statement : Recursion (statementStep declaration)
  | parameters : Recursion parametersStep
  | methods : Recursion (methodsStep declaration)
  | declaration : Recursion declarationStep
  | program : Recursion programStep

/-- The rules by which a program is read. -/
inductive Production : {α : Type} → Rule α → Prop
  | recursive {α β : Type} {body : (β → Rule α) → β → Rule α} (b : β) : Recursion body →
    Production (fix body b)
  | primary : Production (primary expression)
  | arguments : Production (arguments expression)
  | call : Production (call expression)
  | chain {level : Level} {tighter : List Level} : level :: tighter <:+ levels →
    Production (chain level (tighter.foldr chain (unary expression)))
  | assignment : Production (assignment expression)
  | expressionUnless (s : Symbol) : Production (expressionUnless s)
  | expressionStatement : Production expressionStatement
  | varDeclaration : Production varDeclaration
  | forInitializer : Production forInitializer
  | forStatement : Production (forStatement (statement declaration))
  | condition (place : Place) : Production (condition place)
  | ifStatement : Production (ifStatement (statement declaration))
  | block : Production (block declaration)
  | parameters : Production parameters
  | function (sort : FunctionSort) : Production (function sort declaration)
  | classDeclaration : Production (classDeclaration declaration)
  | declared : Production (declared declaration)

/-- However deep a rule uses itself, it never does so deeper than there are tokens ahead: what it
would find at a level below them does not matter. -/
def Rule.Ends {α β : Type} (body : (β → Rule α) → β → Rule α) : Prop :=
  ∀ (deepest : β → Rule α) (levels : Nat) (b : β) (c : Cursor), c.eof.isEof = true →
    c.left < levels → body^[levels] deepest b c = fix body b c

/-- Every use that a rule makes of itself is behind a token. -/
theorem Recursion.agrees {α β : Type} {body : (β → Rule α) → β → Rule α} (h : Recursion body) :
    ∃ k, ∀ n, ∀ again again', (∀ b, Agrees n k (again b) (again' b)) →
      ∀ b, Agrees (n + 1) k (body again b) (body again' b) := by
  cases h with
  | arguments => exact ⟨_, fun _ _ _ h => agrees_argumentsStep agrees_expression h⟩
  | call => exact ⟨_, fun _ _ _ h => agrees_callStep agrees_expression h⟩
  | unary => exact ⟨_, fun _ _ _ h => agrees_unaryStep agrees_expression h⟩
  | chain => exact ⟨_, fun _ _ _ h => agrees_chainStep _ (agrees_levels _ agrees_expression) h⟩
  | expression => exact ⟨_, fun _ _ _ h _ => agrees_assignment (h ())⟩
  | declarations => exact ⟨_, fun _ _ _ h => agrees_declarationsStep agrees_declaration h⟩
  | statement => exact ⟨_, fun _ _ _ h => agrees_statementStep agrees_declaration h⟩
  | parameters => exact ⟨_, fun _ _ _ h => agrees_parametersStep h⟩
  | methods => exact ⟨_, fun _ _ _ h => agrees_methodsStep agrees_declaration h⟩
  | declaration => exact ⟨_, fun _ _ _ h => agrees_declarationStep h⟩
  | program => exact ⟨_, fun _ _ _ h => agrees_programStep h⟩

theorem Recursion.ends {α β : Type} {body : (β → Rule α) → β → Rule α} (h : Recursion body) :
    Rule.Ends body := by
  obtain ⟨k, hbody⟩ := h.agrees
  intro deepest m b c he hlt
  exact ((Agrees.fix_levels (fun m _ => hbody m) deepest m (Nat.le_refl m) b).under ⟨hlt, he⟩).same

theorem Production.agrees {α : Type} {rule : Rule α} (h : Production rule) :
    ∃ k, ∀ n, Agrees n k rule rule := by
  cases h with
  | recursive b h =>
    obtain ⟨k, hbody⟩ := h.agrees
    exact ⟨k, fun n => .fix (fun m _ => hbody m) b⟩
  | primary => exact ⟨_, fun _ => agrees_primary agrees_expression⟩
  | arguments => exact ⟨_, fun _ => agrees_arguments agrees_expression⟩
  | call => exact ⟨_, fun _ => agrees_call agrees_expression⟩
  | chain => exact ⟨_, fun _ => agrees_levels (_ :: _) agrees_expression⟩
  | assignment => exact ⟨_, fun _ => agrees_assignment agrees_expression⟩
  | expressionUnless s => exact ⟨_, fun _ => agrees_expressionUnless s⟩
  | expressionStatement => exact ⟨_, fun _ => agrees_expressionStatement⟩
  | varDeclaration => exact ⟨_, fun _ => agrees_varDeclaration⟩
  | forInitializer => exact ⟨_, fun _ => agrees_forInitializer⟩
  | forStatement => exact ⟨_, fun _ => agrees_forStatement (agrees_statement agrees_declaration)⟩
  | condition place => exact ⟨_, fun _ => agrees_condition place⟩
  | ifStatement => exact ⟨_, fun _ => agrees_ifStatement (agrees_statement agrees_declaration)⟩
  | block => exact ⟨_, fun _ => agrees_block agrees_declaration⟩
  | parameters => exact ⟨_, fun _ => agrees_parameters⟩
  | function sort => exact ⟨_, fun _ => agrees_function sort agrees_declaration⟩
  | classDeclaration => exact ⟨_, fun _ => agrees_classDeclaration agrees_declaration⟩
  | declared => exact ⟨_, fun _ => agrees_declared agrees_declaration⟩

/-- No rule goes back. -/
theorem Production.onward {α : Type} {rule : Rule α} (h : Production rule) {c : Cursor}
    (he : c.eof.isEof = true) : c.Onward (cursorOf (rule c)) :=
  have ⟨_, hrule⟩ := h.agrees
  ((hrule (c.left + 1)).under ⟨Nat.lt_succ_self _, he⟩).onward

/-! ## Places -/

/-- The tokens that are read: those that are given, with an end behind them unless they come with
one. -/
def supplied (tokens : List Token) : List Token :=
  if tokens.getLast?.any Token.isEof then tokens
  else tokens ++ [.eof ((tokens.getLast?.map Token.line).getD 1)]

/-- The place of the first end. -/
def firstEnd (tokens : List Token) : Nat := (supplied tokens).findIdx Token.isEof

/-- The place of the next token among those of a program. -/
def Cursor.position (tokens : List Token) (c : Cursor) : Nat := firstEnd tokens - c.left

theorem supplied_eq (tokens : List Token) :
    ∃ behind, supplied tokens = bodyOf tokens ++ endOf tokens :: behind := by
  have hsplit := List.takeWhile_append_dropWhile (p := fun t : Token => !t.isEof) (l := tokens)
  cases hdrop : tokens.dropWhile fun t => !t.isEof with
  | nil =>
    have hall := List.dropWhile_eq_nil_iff.1 hdrop
    have hlast : tokens.getLast?.any Token.isEof = false := by
      cases hl : tokens.getLast? with
      | none => rfl
      | some t => simpa using hall t (List.mem_of_getLast? hl)
    have hfind : tokens.find? Token.isEof = none :=
      List.find?_eq_none.2 fun t ht => by simpa using hall t ht
    rw [hdrop, List.append_nil] at hsplit
    refine ⟨[], ?_⟩
    rw [supplied, if_neg (by simp [hlast]), endOf, hfind, bodyOf, hsplit]
    rfl
  | cons e rest =>
    have hend : e.isEof = true := by
      have := List.head?_dropWhile_not (fun t : Token => !t.isEof) tokens
      rw [hdrop] at this
      simpa using this
    have hbody : ∀ t ∈ bodyOf tokens, ¬ t.isEof = true := fun t ht => by
      simpa using List.mem_takeWhile_imp ht
    have htokens : tokens = bodyOf tokens ++ e :: rest := by rw [bodyOf, ← hdrop, hsplit]
    have hfind : endOf tokens = e := by
      have : tokens.find? Token.isEof = some e := by
        rw [htokens, List.find?_append, List.find?_eq_none.2 hbody, List.find?_cons_of_pos hend]
        rfl
      rw [endOf, this]
      rfl
    rw [hfind, supplied]
    split
    · exact ⟨rest, htokens⟩
    · refine ⟨rest ++ [.eof ((tokens.getLast?.map Token.line).getD 1)], ?_⟩
      rw [← List.cons_append, ← List.append_assoc, ← htokens]

theorem firstEnd_eq (tokens : List Token) : firstEnd tokens = (bodyOf tokens).length := by
  obtain ⟨behind, h⟩ := supplied_eq tokens
  have hbody : ∀ t ∈ bodyOf tokens, t.isEof = false := fun t ht => by
    simpa using List.mem_takeWhile_imp ht
  rw [firstEnd, h, List.findIdx_append, if_neg fun hlt => ?_, List.findIdx_cons, isEof_endOf]
  · exact Nat.zero_add _
  · rw [List.findIdx_lt_length] at hlt
    obtain ⟨t, ht, he⟩ := hlt
    rw [hbody t ht] at he
    cases he

/-- The tokens up to the first end, and the end. -/
theorem take_supplied (tokens : List Token) :
    (supplied tokens).take (firstEnd tokens + 1) = bodyOf tokens ++ [endOf tokens] := by
  obtain ⟨behind, h⟩ := supplied_eq tokens
  rw [h, firstEnd_eq, List.take_length_add_append]
  rfl

namespace Cursor

variable {tokens : List Token} {firstId : NodeId} {c d : Cursor}

/-- Where a program is read, the tokens ahead are those from the place on, and the next one is the
one at the place. -/
theorem Onward.place (h : (ofTokens tokens firstId).Onward c) :
    c.position tokens ≤ firstEnd tokens ∧ (supplied tokens)[c.position tokens]? = some c.peek := by
  obtain ⟨behind, hsupplied⟩ := supplied_eq tokens
  obtain ⟨before, hbefore⟩ := h.rest
  have hbefore : before ++ c.rest = bodyOf tokens := hbefore
  have hplace : c.position tokens = before.length := by
    rw [position, firstEnd_eq, ← hbefore, List.length_append, c.left_eq, Nat.add_sub_cancel]
  refine ⟨Nat.sub_le .., ?_⟩
  rw [hplace, hsupplied, ← hbefore, List.append_assoc, List.getElem?_append_right (Nat.le_refl _),
    Nat.sub_self, peek, h.eof]
  cases c.rest <;> rfl

theorem Onward.position_le (h : c.Onward d) : c.position tokens ≤ d.position tokens :=
  Nat.sub_le_sub_left h.left_le _

end Cursor

/-- A declaration takes a token where one is ahead, whether it fails or not. -/
theorem declaration_takes {c : Cursor} (he : c.eof.isEof = true) (hrest : c.rest ≠ []) :
    ∃ s? d, declaration c = .ok s? d ∧ c.Onward d ∧ d.left < c.left := by
  have h := (agrees_declaration (n := c.left + 1)).under ⟨Nat.lt_succ_self _, he⟩
  have honward := h.onward
  cases hr : declaration c with
  | ok s? d =>
    rw [hr] at honward
    exact ⟨s?, d, rfl, honward, h.takes hrest hr⟩
  | error e d =>
    have hnever : declaration c = declarationStep (below c.left fun u => fix declarationStep u) () c :=
      fix_eq _ _ _
    rw [hnever] at hr
    unfold declarationStep recover at hr
    split at hr <;> cases hr

/-- A program is read to its end. -/
theorem programFrom_ends {c : Cursor} (he : c.eof.isEof = true) (found : List Stmt) :
    ∃ ss d, programFrom found c = .ok ss d ∧ c.Onward d ∧ d.rest = [] := by
  induction hn : c.left using Nat.strongRecOn generalizing c found with
  | ind n ih =>
    subst hn
    by_cases hrest : c.rest = []
    · exact ⟨_, c, programFrom_nil hrest found, .refl c, hrest⟩
    · obtain ⟨s?, d, hs, hd, hlt⟩ := declaration_takes he hrest
      obtain ⟨ss, d', hss, hd', hend⟩ := ih d.left hlt (hd.eof ▸ he) (s?.toList ++ found) rfl
      refine ⟨ss, d', ?_, hd.trans hd', hend⟩
      rw [programFrom_cons hrest, Carries.bind_of_ok hs, below, if_pos hlt, hss]

theorem ofTokens_congr {tokens tokens' : List Token} (hbody : bodyOf tokens' = bodyOf tokens)
    (hend : endOf tokens' = endOf tokens) (firstId : NodeId) :
    Cursor.ofTokens tokens' firstId = Cursor.ofTokens tokens firstId := by
  have key {rest rest' : List Token} {eof eof' : Token} (hr : rest' = rest) (he : eof' = eof) :
      (⟨rest', rest'.length, eof', firstId, #[], false, rfl⟩ : Cursor) =
        ⟨rest, rest.length, eof, firstId, #[], false, rfl⟩ := by
    subst hr he
    rfl
  exact key hbody hend

/-- Any tokens are read as a program up to the first end. Rules use themselves on fewer and fewer
tokens, none goes back, passes the end or looks at a place where no token is; a declaration always
brings the end nearer; and what is behind the end makes no difference. -/
theorem parse_ends (tokens : List Token) (firstId : NodeId) :
    (∃ ss d, program (.ofTokens tokens firstId) = .ok ss d ∧
      d.position tokens = firstEnd tokens ∧
      parse tokens firstId = ⟨ss, d.errors.toList, d.failed, d.nextId⟩) ∧
    (∀ {α β : Type} {body : (β → Rule α) → β → Rule α}, Recursion body → Rule.Ends body) ∧
    (∀ c, (Cursor.ofTokens tokens firstId).Onward c →
      c.position tokens ≤ firstEnd tokens ∧ (supplied tokens)[c.position tokens]? = some c.peek ∧
      (∀ {α : Type} {rule : Rule α}, Production rule →
        (Cursor.ofTokens tokens firstId).Onward (cursorOf (rule c)) ∧
        c.position tokens ≤ (cursorOf (rule c)).position tokens) ∧
      (c.peek.isEof = false →
        ∃ s? d, declaration c = .ok s? d ∧ c.position tokens < d.position tokens)) ∧
    ∀ tokens', (supplied tokens').take (firstEnd tokens' + 1) =
        (supplied tokens).take (firstEnd tokens + 1) →
      parse tokens' firstId = parse tokens firstId := by
  refine ⟨?_, Recursion.ends, fun c hc => ?_, fun tokens' h => ?_⟩
  · obtain ⟨ss, d, hss, -, hend⟩ :=
      programFrom_ends (c := .ofTokens tokens firstId) (isEof_endOf tokens) []
    refine ⟨ss, d, hss, ?_, parse_of_ok hss⟩
    rw [Cursor.position, Cursor.left_eq_zero.2 hend, Nat.sub_zero]
  · have he : c.eof.isEof = true := hc.eof ▸ isEof_endOf tokens
    obtain ⟨hle, hpeek⟩ := hc.place
    refine ⟨hle, hpeek, fun hrule => ?_, fun hnot => ?_⟩
    · exact ⟨hc.trans (hrule.onward he), (hrule.onward he).position_le⟩
    · have hrest : c.rest ≠ [] := fun hnil => by
        rw [Cursor.peek, hnil, List.headD_nil, he] at hnot
        cases hnot
      obtain ⟨s?, d, hs, -, hlt⟩ := declaration_takes he hrest
      refine ⟨s?, d, hs, ?_⟩
      have hstart : c.left ≤ firstEnd tokens := by
        rw [firstEnd_eq]
        exact hc.left_le
      unfold Cursor.position
      omega
  · rw [take_supplied, take_supplied] at h
    obtain ⟨hbody, hend⟩ := List.append_inj' h rfl
    unfold parse
    rw [ofTokens_congr hbody (List.cons_eq_cons.1 hend).1]

end Lox.Grammar
