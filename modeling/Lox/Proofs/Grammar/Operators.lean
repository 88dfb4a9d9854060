/-
The operators in trees. Each production takes the operator of a node from a fixed
list of symbols, so at no depth of what is read, with errors or without, is there a
node with another one (`Grammar.parse_apt`). What holds of all nodes of a tree is
put together from its parts (`Node.All.intro`).
-/
import Lox.Proofs.Grammar.SalvageStatement
import Lox.Proofs.Scope.Position

namespace Lox

namespace Node

/-- The symbols that stand in front of one operand. -/
def unaryOperators : List Symbol := [.bang, .minus]

/-- The symbols of comparison and arithmetic. -/
def binaryOperators : List Symbol :=
  [.bangEqual, .equalEqual, .greater, .greaterEqual, .less, .lessEqual, .minus, .plus, .slash, .star]

/-- The words between conditions. -/
def logicalOperators : List Symbol := [.kwAnd, .kwOr]

/-- If the node has an operator, it is one of its sort. -/
def Apt : Node → Prop
  | expr (.unary op _) => ∃ s ∈ unaryOperators, op.kind = .symbol s
  | expr (.binary _ op _) => ∃ s ∈ binaryOperators, op.kind = .symbol s
  | expr (.logical _ op _) => ∃ s ∈ logicalOperators, op.kind = .symbol s
  | _ => True

/-- Every node in the node has the property, itself too. -/
def All (P : Node → Prop) (n : Node) : Prop := ∀ p m, n.node? p = some m → P m

namespace All

variable {P : Node → Prop} {n : Node}

theorem intro (hn : P n) (h : ∀ c ∈ n.children, c.All P) : n.All P := by
  intro p m hm
  cases p with
  | nil =>
    cases hm
    exact hn
  | cons i p =>
    rw [node?] at hm
    split at hm
    next c hc => exact h c (List.mem_of_getElem? hc) p m hm
    next => cases hm

/-- A node without parts. -/
theorem leaf (hn : P n) (h : n.children = []) : n.All P :=
  .intro hn (h ▸ List.forall_mem_nil _)

/-- A node with one part. -/
theorem one {c : Node} (hn : P n) (h : n.children = [c]) (hc : c.All P) : n.All P :=
  .intro hn (h ▸ List.forall_mem_singleton.2 hc)

/-- A node with two parts. -/
theorem two {c d : Node} (hn : P n) (h : n.children = [c, d]) (hc : c.All P) (hd : d.All P) :
    n.All P :=
  .intro hn (h ▸ List.forall_mem_cons.2 ⟨hc, List.forall_mem_singleton.2 hd⟩)

theorem self (h : n.All P) : P n := h [] n rfl

theorem part {c : Node} (h : n.All P) (hc : c ∈ n.children) : c.All P := by
  obtain ⟨i, hi⟩ := List.mem_iff_getElem?.1 hc
  refine fun p m hm => h (i :: p) m ?_
  rw [node?, hi]
  exact hm

end All

end Node

namespace Ebnf

open Node (Apt)

/-! ## Expressions -/

theorem kind_of_any {symbols : List Symbol} {op : Token} (h : symbols.any op.is = true) :
    ∃ s ∈ symbols, op.kind = .symbol s := by
  obtain ⟨s, hs, hop⟩ := List.any_eq_true.1 h
  exact ⟨s, hs, Token.is_iff.1 hop⟩

/-- The operators of a layer are those of its nodes. -/
theorem apt_node {layer : Layer} {left right : Expr} {op : Token}
    (h : layer.operators.any op.is = true) (hl : (Node.expr left).All Apt)
    (hr : (Node.expr right).All Apt) : (Node.expr (layer.node left op right)).All Apt := by
  obtain ⟨s, hs, hop⟩ := kind_of_any h
  cases layer with
  | logicOr | logicAnd =>
    exact .two ⟨s, (show Layer.operators _ ⊆ Node.logicalOperators by decide) hs, hop⟩ rfl hl hr
  | equality | comparison | term | factor =>
    exact .two ⟨s, (show Layer.operators _ ⊆ Node.binaryOperators by decide) hs, hop⟩ rfl hl hr

mutual

theorem apt_assignment : ∀ {ts : List Token} {e : Expr}, Assignment ts e → (Node.expr e).All Apt
  | _, _, .variable _ _ he => .one trivial rfl (apt_assignment he)
  | _, _, .property hobject _ _ _ he => .two trivial rfl (apt_call hobject) (apt_assignment he)
  | _, _, .operation he => apt_operation he

theorem apt_operation : ∀ {layer : Layer} {ts : List Token} {e : Expr}, Operation layer ts e →
    (Node.expr e).All Apt
  | _, _, _, .operand he => apt_operand he
  | _, _, _, .operator hl hop hr => apt_node hop (apt_operation hl) (apt_operand hr)

theorem apt_operand : ∀ {layer : Layer} {ts : List Token} {e : Expr}, Operand layer ts e →
    (Node.expr e).All Apt
  | _, _, _, .layer _ he => apt_operation he
  | _, _, _, .unary _ he => apt_unary he

theorem apt_unary : ∀ {ts : List Token} {e : Expr}, Unary ts e → (Node.expr e).All Apt
  | _, _, .operator hop he => .one (kind_of_any hop) rfl (apt_unary he)
  | _, _, .call he => apt_call he

theorem apt_call : ∀ {ts : List Token} {e : Expr}, Call ts e → (Node.expr e).All Apt
  | _, _, .primary he => apt_primary he
  | _, _, .call hcallee _ hargs _ =>
    .intro trivial (List.forall_mem_cons.2
      ⟨apt_call hcallee, List.forall_mem_map.2 (apt_arguments hargs)⟩)
  | _, _, .property hobject _ _ => .one trivial rfl (apt_call hobject)

theorem apt_arguments : ∀ {ts : List Token} {es : List Expr}, Arguments ts es →
    ∀ e ∈ es, (Node.expr e).All Apt
  | _, _, .none => List.forall_mem_nil _
  | _, _, .some hes => apt_argumentList hes

theorem apt_argumentList : ∀ {ts : List Token} {es : List Expr}, ArgumentList ts es →
    ∀ e ∈ es, (Node.expr e).All Apt
  | _, _, .last he => List.forall_mem_singleton.2 (apt_assignment he)
  | _, _, .more he _ hes => List.forall_mem_cons.2 ⟨apt_assignment he, apt_argumentList hes⟩

theorem apt_primary : ∀ {ts : List Token} {e : Expr}, Primary ts e → (Node.expr e).All Apt
  | _, _, .literal _ => .leaf trivial rfl
  | _, _, .this _ => .leaf trivial rfl
  | _, _, .variable _ => .leaf trivial rfl
  | _, _, .grouping _ he _ => .one trivial rfl (apt_assignment he)

end

/-! ## Statements -/

theorem apt_varDeclaration {ts : List Token} {s : Stmt} (h : VarDeclaration ts s) :
    (Node.stmt s).All Apt := by
  cases h with
  | plain => exact .leaf trivial rfl
  | initialized _ _ _ he => exact .one trivial rfl (apt_assignment he)

theorem apt_expressionStatement {ts : List Token} {s : Stmt} (h : ExpressionStatement ts s) :
    (Node.stmt s).All Apt := by
  obtain ⟨he, -⟩ := h
  exact .one trivial rfl (apt_assignment he)

/-- A `for` loop has no operators but those of its parts. -/
theorem apt_whileForm {as bs cs : List Token} {init : Option Stmt} {test step : Option Expr}
    {body : Stmt} (hinit : ForInitializer as init) (htest : OptionalExpression bs test)
    (hstep : OptionalExpression cs step) (hbody : (Node.stmt body).All Apt) :
    (Node.stmt (whileForm init test step body)).All Apt := by
  have hround : (Node.stmt (withIncrement body step)).All Apt := by
    cases hstep with
    | none => exact hbody
    | some he => exact .two trivial rfl hbody (.one trivial rfl (apt_assignment he))
  have hloop : (Node.stmt (whileTrue (withIncrement body step) test)).All Apt := by
    cases htest with
    | none => exact .two trivial rfl (.leaf trivial rfl) hround
    | some he => exact .two trivial rfl (apt_assignment he) hround
  cases hinit with
  | «variable» hs => exact .two trivial rfl (apt_varDeclaration hs) hloop
  | expression hs => exact .two trivial rfl (apt_expressionStatement hs) hloop
  | none => exact hloop

/-- Parameters and a body without foreign operators. -/
theorem apt_parts (params : List Token) {body : List Stmt}
    (h : ∀ s ∈ body, (Node.stmt s).All Apt) :
    ∀ c ∈ params.map Node.param ++ body.map Node.stmt, c.All Apt :=
  List.forall_mem_append.2
    ⟨List.forall_mem_map.2 fun _ _ => .leaf trivial rfl, List.forall_mem_map.2 h⟩

mutual

theorem apt_statement {nearest : Bool} : ∀ {ts : List Token} {s : Stmt} {opens : Bool},
    Statement nearest ts s opens → (Node.stmt s).All Apt
  | _, _, _, .expression hs => apt_expressionStatement hs
  | _, _, _, .for _ _ hinit htest _ hstep _ hbody =>
    apt_whileForm hinit htest hstep (apt_statement hbody)
  | _, _, _, .if _ _ htest _ hthen => .two trivial rfl (apt_assignment htest) (apt_statement hthen)
  | _, _, _, .ifElse _ _ htest _ hthen _ _ helse =>
    .intro trivial (List.forall_mem_cons.2 ⟨apt_assignment htest, List.forall_mem_cons.2
      ⟨apt_statement hthen, List.forall_mem_singleton.2 (apt_statement helse)⟩⟩)
  | _, _, _, .print _ he _ => .one trivial rfl (apt_assignment he)
  | _, _, _, .return _ .none _ => .leaf trivial rfl
  | _, _, _, .return _ (.some he) _ => .one trivial rfl (apt_assignment he)
  | _, _, _, .while _ _ htest _ hbody =>
    .two trivial rfl (apt_assignment htest) (apt_statement hbody)
  | _, _, _, .block hbody => .intro trivial (List.forall_mem_map.2 (apt_block hbody))

theorem apt_declaration {nearest : Bool} : ∀ {ts : List Token} {s : Stmt},
    Declaration nearest ts s → (Node.stmt s).All Apt
  | _, _, .class _ _ _ hmethods _ => .intro trivial (List.forall_mem_map.2 (apt_methods hmethods))
  | _, _, .function _ (.intro _ _ _ _ hbody) =>
    .one trivial rfl (.intro trivial (apt_parts _ (apt_block hbody)))
  | _, _, .variable hs => apt_varDeclaration hs
  | _, _, .statement hs => apt_statement hs

theorem apt_declarations {nearest : Bool} : ∀ {ts : List Token} {ss : List Stmt},
    Declarations nearest ts ss → ∀ s ∈ ss, (Node.stmt s).All Apt
  | _, _, .nil => List.forall_mem_nil _
  | _, _, .cons hs hmore => List.forall_mem_cons.2 ⟨apt_declaration hs, apt_declarations hmore⟩

theorem apt_block {nearest : Bool} : ∀ {ts : List Token} {ss : List Stmt},
    Block nearest ts ss → ∀ s ∈ ss, (Node.stmt s).All Apt
  | _, _, .intro _ hs _ => apt_declarations hs

theorem apt_methods {nearest : Bool} : ∀ {ts : List Token} {ds : List FunctionDecl},
    Methods nearest ts ds → ∀ d ∈ ds, (Node.method d).All Apt
  | _, _, .nil => List.forall_mem_nil _
  | _, _, .cons (.intro _ _ _ _ hbody) hmore =>
    List.forall_mem_cons.2 ⟨.intro trivial (apt_parts _ (apt_block hbody)), apt_methods hmore⟩

end

end Ebnf

/-! ## What is read -/

/-- The node stands in a program that was read, whatever the tokens were. -/
def Node.Read (n : Node) : Prop :=
  ∃ tokens firstId p, (program (Grammar.parse tokens firstId).statements).node? p = some n

namespace Grammar

/-- Nothing that is read has an operator of another sort, whatever else is wrong with the program:
each operator is taken from the list of its production. -/
theorem parse_apt (tokens : List Token) (firstId : NodeId) :
    (Node.program (parse tokens firstId).statements).All Node.Apt := by
  obtain ⟨us, -, hprogram, -⟩ := parse_salvages tokens firstId
  exact .intro trivial (List.forall_mem_map.2 (Ebnf.apt_declarations hprogram))

end Grammar

namespace Node.Read

theorem apt {n : Node} (h : n.Read) : n.Apt := by
  obtain ⟨tokens, firstId, p, hn⟩ := h
  exact Grammar.parse_apt tokens firstId p n hn

theorem part {n c : Node} (h : n.Read) (hc : c ∈ n.children) : c.Read := by
  obtain ⟨tokens, firstId, p, hn⟩ := h
  obtain ⟨i, hi⟩ := List.mem_iff_getElem?.1 hc
  exact ⟨tokens, firstId, p ++ [i], (node?_concat hn i).trans hi⟩

/-- The statements of a program that was read. -/
theorem of_parse {tokens : List Token} {firstId : NodeId} {s : Stmt}
    (h : s ∈ (Grammar.parse tokens firstId).statements) : (stmt s).Read :=
  part ⟨tokens, firstId, [], rfl⟩ (List.mem_map_of_mem h)

end Node.Read

end Lox
