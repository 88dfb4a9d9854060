/-
Trees can be read again from their written form, up to what it leaves out: the
lines, the numbers of nodes, and the tokens that have no text of their own there
(`Stmt.erased`). An outline is read by its heads (`Outline.stmt?`), and reading the
outline of a tree gives the tree back (`Stmt.read_outline`).
-/
import Lox.Proofs.Grammar.Legible

namespace Lox

/-! ## What is not written -/

/-- The token of a symbol, on no line. -/
def Token.fixed (s : Symbol) : Token := ⟨.symbol s, s.text, 0⟩

/-- The token without its line. -/
def Token.erased (t : Token) : Token := { t with line := 0 }

mutual

/-- The expression without lines and numbers, and with fixed tokens for those that are not
written. -/
def Expr.erased : Expr → Expr
  | .literal l => .literal l
  | .grouping inner => .grouping inner.erased
  | .unary op operand => .unary op.erased operand.erased
  | .binary left op right => .binary left.erased op.erased right.erased
  | .logical left op right => .logical left.erased op.erased right.erased
  | .variable _ name => .variable 0 name.erased
  | .assign _ name value => .assign 0 name.erased value.erased
  | .call callee _ args => .call callee.erased (.fixed .rightParen) (Expr.erasedAll args)
  | .get object name => .get object.erased name.erased
  | .set object name value => .set object.erased name.erased value.erased
  | .this _ _ => .this 0 (.fixed .kwThis)

def Expr.erasedAll : List Expr → List Expr
  | [] => []
  | e :: rest => e.erased :: Expr.erasedAll rest

end

mutual

/-- The statement without lines and numbers, and with fixed tokens for those that are not
written. -/
def Stmt.erased : Stmt → Stmt
  | .expression e => .expression e.erased
  | .print e => .print e.erased
  | .var name init => .var name.erased (init.map Expr.erased)
  | .block body => .block (Stmt.erasedAll body)
  | .cond test thenPart none => .cond test.erased thenPart.erased none
  | .cond test thenPart (some elsePart) =>
    .cond test.erased thenPart.erased (some elsePart.erased)
  | .while test body => .while test.erased body.erased
  | .function decl => .function decl.erased
  | .ret _ value => .ret (.fixed .kwReturn) (value.map Expr.erased)
  | .class name methods => .class name.erased (FunctionDecl.erasedAll methods)

def Stmt.erasedAll : List Stmt → List Stmt
  | [] => []
  | s :: rest => s.erased :: Stmt.erasedAll rest

def FunctionDecl.erased : FunctionDecl → FunctionDecl
  | .mk name params body => .mk name.erased (params.map Token.erased) (Stmt.erasedAll body)

def FunctionDecl.erasedAll : List FunctionDecl → List FunctionDecl
  | [] => []
  | d :: rest => d.erased :: FunctionDecl.erasedAll rest

end

/-! ## Reading outlines -/

/-- The symbol with this text. -/
def Symbol.ofText? (text : String) : Option Symbol :=
  (marks ++ keywords).find? fun s => s.text == text

theorem Symbol.ofText?_text (s : Symbol) : ofText? s.text = some s := by
  cases s <;> decide +kernel

open Classical in
/-- The legible constant with this text. -/
noncomputable def Literal.ofText? (text : String) : Option Literal :=
  if h : ∃ l : Literal, l.Legible ∧ l.text = text then some h.choose else none

/-- An expression of one word: a constant, the receiver, or else a variable. -/
noncomputable def Expr.ofWord (text : String) : Expr :=
  match Literal.ofText? text with
  | some l => .literal l
  | none =>
    if text = receiverName then .this 0 (.fixed .kwThis) else .variable 0 (.identifier text 0)

/-- An operator with its operands. -/
def Expr.ofOperator? (s : Symbol) : List Expr → Option Expr
  | [e] => some (.unary (.fixed s) e)
  | [left, right] =>
    some (if s ∈ Node.logicalOperators then .logical left (.fixed s) right
      else .binary left (.fixed s) right)
  | _ => none

/-- An expression of several parts. What stands for a name was read as a variable, and what is
assigned to as its value. -/
def Expr.ofParts? : String → List Expr → Option Expr
  | "group", [e] => some (.grouping e)
  | "call", callee :: args => some (.call callee (.fixed .rightParen) args)
  | ".", [object, .variable _ name] => some (.get object name)
  | "=", [.variable _ name, e] => some (.assign 0 name e)
  | "=", [.get object name, e] => some (.set object name e)
  | head, es => (Symbol.ofText? head).bind fun s => ofOperator? s es

/-- The declaration that a statement is. -/
def Stmt.decl? : Stmt → Option FunctionDecl
  | .function decl => some decl
  | _ => none

namespace Outline

mutual

/-- The expression with this outline. -/
noncomputable def expr? : Outline → Option Expr
  | word text => some (.ofWord text)
  | list (word head :: parts) => (exprs? parts).bind (Expr.ofParts? head)
  | list _ => none

noncomputable def exprs? : List Outline → Option (List Expr)
  | [] => some []
  | o :: rest => do return (← o.expr?) :: (← exprs? rest)

end

/-- The name of one word. -/
def name? : Outline → Option Token
  | word text => some (.identifier text 0)
  | list _ => none

mutual

/-- The statement with this outline. Methods are read as functions. -/
noncomputable def stmt? : Outline → Option Stmt
  | list [word ";", e] => do return .expression (← e.expr?)
  | list [word "print", e] => do return .print (← e.expr?)
  | list [word "var", name] => do return .var (← name.name?) none
  | list [word "var", name, e] => do return .var (← name.name?) (some (← e.expr?))
  | list (word "block" :: body) => do return .block (← stmts? body)
  | list [word "if", test, thenPart] => do return .cond (← test.expr?) (← thenPart.stmt?) none
  | list [word "if", test, thenPart, elsePart] => do
    return .cond (← test.expr?) (← thenPart.stmt?) (some (← elsePart.stmt?))
  | list [word "while", test, body] => do return .while (← test.expr?) (← body.stmt?)
  | list (word "fun" :: name :: list params :: body) => do
    return .function (.mk (← name.name?) (← params.mapM name?) (← stmts? body))
  | list [word "return"] => some (.ret (.fixed .kwReturn) none)
  | list [word "return", e] => do return .ret (.fixed .kwReturn) (some (← e.expr?))
  | list (word "class" :: name :: methods) => do
    return .class (← name.name?) (← (← stmts? methods).mapM Stmt.decl?)
  | _ => none

noncomputable def stmts? : List Outline → Option (List Stmt)
  | [] => some []
  | o :: rest => do return (← o.stmt?) :: (← stmts? rest)

end

end Outline

/-! ## Words can be told apart -/

/-- A name starts with a letter. -/
theorem IsName.any_start {text : String} (h : IsName text) :
    text.toList.any isNameStart = true := by
  obtain ⟨c, hc, hstart⟩ := (Option.any_eq_true _ _).1 h.first
  exact List.any_eq_true.2 ⟨c, List.mem_of_mem_head? hc, hstart⟩

theorem not_isNameStart_of_isDigit {c : Char} (h : c.isDigit = true) : isNameStart c = false := by
  refine Bool.eq_false_iff.2 fun hstart => ?_
  rw [isNameStart, Bool.or_eq_true, beq_iff_eq] at hstart
  obtain halpha | rfl := hstart
  · have hdigit : (c.val ≥ 48 && c.val ≤ 57) = true := h
    have halpha : (decide (c.val ≥ 65 ∧ c.val ≤ 90) || c.val ≥ 97 && c.val ≤ 122) = true :=
      halpha
    simp only [Bool.and_eq_true, Bool.or_eq_true, decide_eq_true_eq, ge_iff_le,
      UInt32.le_iff_toNat_le, UInt32.reduceToNat] at hdigit halpha
    omega
  · cases h

namespace Literal

/-- No word with a letter in it is a number. -/
theorem text_number_ne {x : Float} (hx : x.isFinite = true) {text : String}
    (h : text.toList.any isNameStart = true) : (number x).text ≠ text := by
  rintro rfl
  obtain ⟨c, hc, hstart⟩ := List.any_eq_true.1 h
  obtain hdigit | rfl | rfl := (Decimal.inFull_chars hx).2 c hc
  · rw [not_isNameStart_of_isDigit hdigit] at hstart
    cases hstart
  · cases hstart
  · cases hstart

/-- The constants that are words. -/
def words : List Literal := [.bool true, .bool false, .nil]

theorem start_of_mem_words : ∀ l ∈ words, l.text.toList.any isNameStart = true := by decide +kernel

theorem keyword_of_mem_words : ∀ l ∈ words, ∃ k ∈ Symbol.keywords, k.text = l.text := by decide

/-- A legible constant is a number or one of the words. -/
theorem Legible.number_or_word {l : Literal} (h : l.Legible) :
    (∃ x, x.isFinite = true ∧ l = number x) ∨ l ∈ words := by
  cases l with
  | number x => exact .inl ⟨x, h, rfl⟩
  | string => exact h.elim
  | bool b => cases b <;> simp [words]
  | nil => simp [words]

theorem eq_of_mem_words {l l' : Literal} (h : l ∈ words) (h' : l' ∈ words)
    (heq : l.text = l'.text) : l = l' := by
  simp only [words, List.mem_cons, List.not_mem_nil, or_false] at h h'
  obtain rfl | rfl | rfl := h <;> obtain rfl | rfl | rfl := h' <;>
    first | rfl | exact absurd heq (by decide)

/-- Legible constants with one text are the same. -/
theorem eq_of_text {l l' : Literal} (h : l.Legible) (h' : l'.Legible) (heq : l.text = l'.text) :
    l = l' := by
  obtain ⟨x, hx, rfl⟩ | hl := h.number_or_word <;> obtain ⟨y, hy, rfl⟩ | hl' := h'.number_or_word
  · exact congrArg number (Decimal.eq_of_inFull hx hy heq)
  · exact absurd heq (text_number_ne hx (start_of_mem_words l' hl'))
  · exact absurd heq.symm (text_number_ne hy (start_of_mem_words l hl))
  · exact eq_of_mem_words hl hl' heq

theorem ofText?_text {l : Literal} (h : l.Legible) : ofText? l.text = some l := by
  have hex : ∃ l' : Literal, l'.Legible ∧ l'.text = l.text := ⟨l, h, rfl⟩
  rw [ofText?, dif_pos hex]
  exact congrArg some (eq_of_text hex.choose_spec.1 h hex.choose_spec.2)

/-- A text with a letter in it is that of a constant only if the constant is a word. -/
theorem ofText?_eq_none {text : String} (h : text.toList.any isNameStart = true)
    (hfree : ∀ l ∈ words, l.text ≠ text) : ofText? text = none := by
  refine dif_neg ?_
  rintro ⟨l, hl, rfl⟩
  obtain ⟨x, hx, rfl⟩ | hword := hl.number_or_word
  · exact text_number_ne hx h rfl
  · exact hfree l hword rfl

end Literal

/-- A name is read as a variable. -/
theorem Expr.ofWord_name {text : String} (h : IsName text) :
    ofWord text = .variable 0 (.identifier text 0) := by
  have hfree : ∀ l ∈ Literal.words, l.text ≠ text := fun l hl => by
    obtain ⟨k, hk, he⟩ := Literal.keyword_of_mem_words l hl
    exact he ▸ h.free k hk
  rw [ofWord, Literal.ofText?_eq_none h.any_start hfree]
  exact if_neg (h.free .kwThis (by decide)).symm

theorem Expr.ofWord_receiver : ofWord receiverName = .this 0 (.fixed .kwThis) := by
  rw [ofWord, Literal.ofText?_eq_none (by decide +kernel) (by decide)]
  exact if_pos rfl

/-- An operator is no other head. -/
theorem Expr.ofParts?_operator {s : Symbol}
    (hs : s ∈ Node.operators) (es : List Expr) : ofParts? s.text es = ofOperator? s es := by
  have hother : ∀ s ∈ Node.operators, s.text ∉ ["group", "call", ".", "="] := by decide
  have hs := hother s hs
  unfold ofParts?
  split
  all_goals first
    | rw [Symbol.ofText?_text]; rfl
    | exact absurd (by simp_all) hs

/-! ## Trees are read back -/

theorem Token.erased_operator {op : Token} (h : op.Legible) {s : Symbol}
    (hk : op.kind = .symbol s) : op.erased = .fixed s := by
  rw [Token.erased, Token.fixed, hk, h.lexeme_eq hk]

theorem Token.erased_name {name : Token} (h : name.isIdentifier = true) :
    name.erased = .identifier name.lexeme 0 := by
  unfold isIdentifier at h
  split at h
  next hk => rw [erased, identifier, hk]
  next => cases h

open Outline

/-- An operator is read with what is read behind it. -/
theorem Token.read_operator {op : Token} (h : op.Legible) {s : Symbol} (hs : s ∈ Node.operators)
    (hk : op.kind = .symbol s) (parts : List Outline) :
    (Outline.list (op.outline :: parts)).expr? = (exprs? parts).bind (Expr.ofOperator? s) := by
  rw [outline, h.lexeme_eq hk, expr?]
  exact congrArg _ (funext (Expr.ofParts?_operator hs))

/-- A name is read as a variable. -/
theorem Token.read_name {name : Token} (h : name.isIdentifier = true ∧ name.Legible) :
    name.outline.expr? = some (.variable 0 name.erased) := by
  rw [outline, expr?, Expr.ofWord_name (h.2.isName h.1), erased_name h.1]

mutual

theorem Expr.read_outline : ∀ e : Expr, (Node.expr e).All Node.Readable →
    e.outline.expr? = some e.erased
  | .literal l, h => by
    rw [Expr.outline, expr?, Expr.ofWord, Literal.ofText?_text h.self.2, Expr.erased]
  | .grouping e, h => by
    have he := Expr.read_outline e (h.part (by simp [Node.children]))
    simp [Expr.outline, expr?, exprs?, he, Expr.ofParts?, Expr.erased]
  | .unary op e, h => by
    obtain ⟨⟨s, hs, hk⟩, hop⟩ := h.self
    have he := Expr.read_outline e (h.part (by simp [Node.children]))
    simp [Expr.outline, Token.read_operator hop (by simp [Node.operators, hs]) hk, exprs?, he,
      Expr.ofOperator?, Expr.erased, Token.erased_operator hop hk]
  | .binary left op right, h => by
    obtain ⟨⟨s, hs, hk⟩, hop⟩ := h.self
    have hl := Expr.read_outline left (h.part (by simp [Node.children]))
    have hr := Expr.read_outline right (h.part (by simp [Node.children]))
    have hsort : s ∉ Node.logicalOperators :=
      (show ∀ s ∈ Node.binaryOperators, s ∉ Node.logicalOperators by decide) s hs
    simp [Expr.outline, Token.read_operator hop (by simp [Node.operators, hs]) hk, exprs?, hl, hr,
      Expr.ofOperator?, Expr.erased, Token.erased_operator hop hk, hsort]
  | .logical left op right, h => by
    obtain ⟨⟨s, hs, hk⟩, hop⟩ := h.self
    have hl := Expr.read_outline left (h.part (by simp [Node.children]))
    have hr := Expr.read_outline right (h.part (by simp [Node.children]))
    simp [Expr.outline, Token.read_operator hop (by simp [Node.operators, hs]) hk, exprs?, hl, hr,
      Expr.ofOperator?, Expr.erased, Token.erased_operator hop hk, hs]
  | .variable _ name, h => Token.read_name h.self.2
  | .assign _ name e, h => by
    have he := Expr.read_outline e (h.part (by simp [Node.children]))
    simp [Expr.outline, expr?, exprs?, Token.read_name h.self.2, he, Expr.ofParts?, Expr.erased]
  | .call callee _ args, h => by
    have hc := Expr.read_outline callee (h.part (by simp [Node.children]))
    have ha := Expr.read_outlines args fun e he => h.part (by simp [Node.children, he])
    simp [Expr.outline, expr?, exprs?, hc, ha, Expr.ofParts?, Expr.erased]
  | .get object name, h => by
    have ho := Expr.read_outline object (h.part (by simp [Node.children]))
    simp [Expr.outline, expr?, exprs?, Token.read_name h.self.2, ho, Expr.ofParts?, Expr.erased]
  | .set object name e, h => by
    have ho := Expr.read_outline object (h.part (by simp [Node.children]))
    have he := Expr.read_outline e (h.part (by simp [Node.children]))
    simp [Expr.outline, expr?, exprs?, Token.read_name h.self.2, ho, he, Expr.ofParts?,
      Expr.erased]
  | .this _ _, _ => congrArg some Expr.ofWord_receiver

theorem Expr.read_outlines : ∀ es : List Expr, (∀ e ∈ es, (Node.expr e).All Node.Readable) →
    exprs? (Expr.outlines es) = some (Expr.erasedAll es)
  | [], _ => rfl
  | e :: rest, h => by
    obtain ⟨he, hrest⟩ := List.forall_mem_cons.1 h
    simp [Expr.outlines, exprs?, Expr.read_outline e he, Expr.read_outlines rest hrest,
      Expr.erasedAll]

end

theorem Token.read_names (names : List Token) (h : ∀ t ∈ names, t.isIdentifier = true) :
    (names.map Token.outline).mapM name? = some (names.map Token.erased) := by
  induction names with
  | nil => rfl
  | cons t rest ih =>
    obtain ⟨ht, hrest⟩ := List.forall_mem_cons.1 h
    simp [outline, name?, ih hrest, erased_name ht]

theorem FunctionDecl.mapM_decl? (ds : List FunctionDecl) :
    (ds.map Stmt.function).mapM Stmt.decl? = some ds := by
  induction ds with
  | nil => rfl
  | cons d rest ih => simp [Stmt.decl?, ih]

mutual

theorem Stmt.read_outline : ∀ s : Stmt, (Node.stmt s).All Node.Readable →
    s.outline.stmt? = some s.erased
  | .expression e, h | .print e, h | .ret _ (some e), h => by
    have he := e.read_outline (h.part (by simp [Node.children]))
    simp [Stmt.outline, stmt?, he, Stmt.erased]
  | .var name none, h => by
    simp [Stmt.outline, Token.outline, stmt?, name?, Token.erased_name h.self.2.1, Stmt.erased]
  | .var name (some e), h => by
    have he := e.read_outline (h.part (by simp [Node.children]))
    simp [Stmt.outline, Token.outline, stmt?, name?, Token.erased_name h.self.2.1, he, Stmt.erased]
  | .block body, h => by
    have hbody := Stmt.read_outlines body fun s hs => h.part (by simp [Node.children, hs])
    simp [Stmt.outline, stmt?, hbody, Stmt.erased]
  | .cond test thenPart none, h => by
    have ht := test.read_outline (h.part (by simp [Node.children]))
    have hthen := Stmt.read_outline thenPart (h.part (by simp [Node.children]))
    simp [Stmt.outline, stmt?, ht, hthen, Stmt.erased]
  | .cond test thenPart (some elsePart), h => by
    have ht := test.read_outline (h.part (by simp [Node.children]))
    have hthen := Stmt.read_outline thenPart (h.part (by simp [Node.children]))
    have helse := Stmt.read_outline elsePart (h.part (by simp [Node.children]))
    simp [Stmt.outline, stmt?, ht, hthen, helse, Stmt.erased]
  | .while test body, h => by
    have ht := test.read_outline (h.part (by simp [Node.children]))
    have hbody := Stmt.read_outline body (h.part (by simp [Node.children]))
    simp [Stmt.outline, stmt?, ht, hbody, Stmt.erased]
  | .function decl, h =>
    FunctionDecl.read_outline decl (.of_function (h.part (by simp [Node.children])))
  | .ret _ none, _ => rfl
  | .class name methods, h => by
    have hmethods := FunctionDecl.read_outlines methods fun d hd =>
      .of_method (h.part (by simp [Node.children, hd]))
    simp [Stmt.outline, Token.outline, stmt?, name?, Token.erased_name h.self.2.1, hmethods,
      FunctionDecl.mapM_decl?, Stmt.erased, -List.mapM_map]

theorem Stmt.read_outlines : ∀ ss : List Stmt, (∀ s ∈ ss, (Node.stmt s).All Node.Readable) →
    stmts? (Stmt.outlines ss) = some (Stmt.erasedAll ss)
  | [], _ => rfl
  | s :: rest, h => by
    obtain ⟨hs, hrest⟩ := List.forall_mem_cons.1 h
    simp [Stmt.outlines, stmts?, Stmt.read_outline s hs, Stmt.read_outlines rest hrest,
      Stmt.erasedAll]

theorem FunctionDecl.read_outline : ∀ d : FunctionDecl, d.Readable →
    d.outline.stmt? = some (.function d.erased)
  | .mk name params body, ⟨hname, hparts⟩ => by
    obtain ⟨hparams, hbody⟩ := List.forall_mem_append.1 hparts
    have hnames := Token.read_names params fun t ht =>
      (hparams _ (List.mem_map_of_mem ht)).self.2.1
    have hbody := Stmt.read_outlines body fun s hs => hbody _ (List.mem_map_of_mem hs)
    have hname : name.erased = .identifier name.lexeme 0 := Token.erased_name hname.1
    simp [FunctionDecl.outline, Token.outline, stmt?, name?, hnames, hbody, hname,
      FunctionDecl.erased]

theorem FunctionDecl.read_outlines : ∀ ds : List FunctionDecl, (∀ d ∈ ds, d.Readable) →
    stmts? (FunctionDecl.outlines ds) = some ((FunctionDecl.erasedAll ds).map Stmt.function)
  | [], _ => rfl
  | d :: rest, h => by
    obtain ⟨hd, hrest⟩ := List.forall_mem_cons.1 h
    simp [FunctionDecl.outlines, stmts?, FunctionDecl.read_outline d hd,
      FunctionDecl.read_outlines rest hrest, FunctionDecl.erasedAll]

end

/-! ## The written form determines the tree -/

/-- Readable statements with one text differ at most in what is not written. -/
theorem Stmt.erased_eq_of_text {s s' : Stmt} (h : (Node.stmt s).All Node.Readable)
    (h' : (Node.stmt s').All Node.Readable) (heq : s.text = s'.text) : s.erased = s'.erased := by
  have houtline : s.outline = s'.outline :=
    Outline.text_inj (s.plain_outline h) (s'.plain_outline h') (by rw [text_outline, text_outline, heq])
  have hread := s'.read_outline h'
  rw [← houtline, s.read_outline h] at hread
  exact Option.some.inj hread

/-- The statements read from a source without strings and without numbers that are too large are
determined by what is written for them. -/
theorem Stmt.erased_eq_of_parsed {source source' : List UInt8} {firstId firstId' : NodeId}
    (h : ∀ t ∈ (Source.scan source).tokens, t.isPlain = true)
    (h' : ∀ t ∈ (Source.scan source').tokens, t.isPlain = true) {s s' : Stmt}
    (hs : s ∈ (Grammar.parse (Source.scan source).tokens firstId).statements)
    (hs' : s' ∈ (Grammar.parse (Source.scan source').tokens firstId').statements)
    (heq : s.text = s'.text) : s.erased = s'.erased :=
  Stmt.erased_eq_of_text
    (Grammar.parse_readable (fun t ht => Source.legible_of_mem_scan ht (h t ht)) hs)
    (Grammar.parse_readable (fun t ht => Source.legible_of_mem_scan ht (h' t ht)) hs') heq

/-- A class on one line. -/
def inOneLine : List UInt8 :=
  Utf8.encode "class A \x7b m(x) \x7b return this.f(x - 2.5).g = -x or nil; \x7d \x7d"

/-- The same class on several lines, with a digit more in its number. -/
def inLines : List UInt8 :=
  Utf8.encode "class A\n\x7b\n  m(x)\n  \x7b\n    return this.f(x - 2.50).g = -x or nil;\n  \x7d\n\x7d"

/-- The written form of both classes. -/
def inParentheses : String :=
  "(class A (fun m (x) (return (= (. (call (. this f) (- x 2.5)) g) (or (- x) nil)))))"

/-- Both classes have one text, so they have one tree, but for lines and numbers. -/
theorem Stmt.erased_eq_of_parsed_inLines :
    (∀ t ∈ (Source.scan inOneLine).tokens, t.isPlain = true) ∧
      (∀ t ∈ (Source.scan inLines).tokens, t.isPlain = true) ∧
      ∃ s ∈ (Grammar.parse (Source.scan inOneLine).tokens 0).statements,
        ∃ s' ∈ (Grammar.parse (Source.scan inLines).tokens 7).statements,
          s.text = inParentheses ∧ s'.text = inParentheses ∧ s.erased = s'.erased := by
  have h : ∀ t ∈ (Source.scan inOneLine).tokens, t.isPlain = true := by decide +kernel
  have h' : ∀ t ∈ (Source.scan inLines).tokens, t.isPlain = true := by decide +kernel
  obtain ⟨s, hs, htext⟩ : ∃ s ∈ (Grammar.parse (Source.scan inOneLine).tokens 0).statements,
      s.text = inParentheses := by decide +kernel
  obtain ⟨s', hs', htext'⟩ : ∃ s ∈ (Grammar.parse (Source.scan inLines).tokens 7).statements,
      s.text = inParentheses := by decide +kernel
  exact ⟨h, h', s, hs, s', hs', htext, htext',
    Stmt.erased_eq_of_parsed h h' hs hs' (htext.trans htext'.symm)⟩

end Lox
