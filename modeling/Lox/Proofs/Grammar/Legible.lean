/-
Trees that are written legibly. In a source without strings and without numbers
that are too large, every token is one whose written form can be told from all
others (`Token.Legible`), and the trees that are read from it have no other tokens
in them (`Grammar.parse_readable`). Their outlines have plain words.
-/
import Lox.Proofs.Decimal.Text
import Lox.Proofs.Grammar.Operators
import Lox.Proofs.Source.Respell
import Lox.Proofs.Tree.Outline

namespace Lox

/-! ## Words -/

/-- The characters that a name can start with. -/
def isNameStart (c : Char) : Bool := c.isAlpha || c == '_'

/-- The characters in names. -/
def isNamePart (c : Char) : Bool := c.isAlphanum || c == '_'

/-- A text that can be a name: a letter with letters and digits behind it, which are no keyword. -/
structure IsName (text : String) : Prop where
  first : text.toList.head?.any isNameStart = true
  word : text.toList.all isNamePart = true
  free : ∀ k ∈ Symbol.keywords, k.text ≠ text

/-- A constant whose written form stands for it alone: no string, which has no quotes there, and no
number that is not finite. -/
def Literal.Legible : Literal → Prop
  | .number x => x.isFinite = true
  | .string _ => False
  | .bool _ | .nil => True

namespace Token

/-- Whether the token is no string, and no number that is too large. -/
def isPlain (t : Token) : Bool :=
  match t.kind with
  | .string _ => false
  | .number x => x.isFinite
  | _ => true

/-- The written form of the token stands for tokens of its kind alone. -/
def Legible (t : Token) : Prop :=
  match t.kind with
  | .symbol s => t.lexeme = s.text
  | .identifier => IsName t.lexeme
  | .number x => x.isFinite = true
  | .string _ => False
  | .eof => True

variable {t : Token}

theorem Legible.lexeme_eq (h : t.Legible) {s : Symbol} (hk : t.kind = .symbol s) :
    t.lexeme = s.text := by
  rw [Legible, hk] at h
  exact h

theorem Legible.isName (h : t.Legible) (ht : t.isIdentifier = true) : IsName t.lexeme := by
  unfold isIdentifier at ht
  split at ht
  next hk =>
    rw [Legible, hk] at h
    exact h
  next => cases ht

end Token

/-- A constant is as legible as its token. -/
theorem Ebnf.Constant.legible {t : Token} {l : Literal} (hl : Constant t l) (h : t.Legible) :
    l.Legible := by
  cases hl with
  | number hk | string hk =>
    rw [Token.Legible, hk] at h
    exact h
  | true | false | nil => trivial

/-! ## Tokens of a source -/

namespace Source

theorem isNameStart_char : ∀ b, isNameStart (Char.ofNat b.toNat) = isLetter b :=
  forall_byte (by decide +kernel)

theorem isNamePart_char : ∀ b, isNamePart (Char.ofNat b.toNat) = isWord b :=
  forall_byte (by decide +kernel)

theorem isName_lenient {b : UInt8} {word : List UInt8} (hb : isLetter b = true)
    (hword : ∀ c ∈ word, isWord c = true) (hfree : ∀ k ∈ Symbol.keywords, spelling k ≠ b :: word) :
    IsName (Utf8.lenient (b :: word)) := by
  have hall : ∀ c ∈ b :: word, isWord c = true :=
    List.forall_mem_cons.2 ⟨by rw [isWord, hb, Bool.true_or], hword⟩
  have hascii : ∀ c ∈ b :: word, c < 0x80 := fun c hc => ascii_of_isWord c (hall c hc)
  have hchars := Utf8.toList_lenient hascii
  refine ⟨?_, ?_, fun k hk he => hfree k hk ?_⟩
  · rw [hchars]
    exact (isNameStart_char b).trans hb
  · rw [hchars, List.all_eq_true]
    exact List.forall_mem_map.2 fun c hc => (isNamePart_char c).trans (hall c hc)
  · rw [spelling, he, Utf8.encode_lenient_of_ascii hascii]

/-- The tokens of a source are legible, but for strings and for numbers that are too large. -/
theorem legible_of_mem_scan {source : List UInt8} {t : Token} (h : t ∈ (scan source).tokens)
    (hplain : t.isPlain = true) : t.Legible := by
  cases he : t.isEof with
  | true =>
    unfold Token.isEof at he
    split at he
    next hk =>
      rw [Token.Legible, hk]
      trivial
    next => cases he
  | false =>
    obtain ⟨w, hw, hlexeme⟩ := lexeme_of_mem_scan h he
    obtain ⟨kind, lexeme, line⟩ := t
    have hlexeme : lexeme = Utf8.lenient w := hlexeme
    subst hlexeme
    cases hw with
    | mark | keyword => exact Utf8.lenient_encode _
    | name hb hword hfree => exact isName_lenient hb hword hfree
    | whole | fraction => exact hplain
    | string => cases hplain

end Source

/-! ## Trees -/

namespace Node

/-- The constant, the operator or the name of the node is legible. -/
def Legible : Node → Prop
  | expr (.literal l) => l.Legible
  | expr (.unary op _) | expr (.binary _ op _) | expr (.logical _ op _) => op.Legible
  | expr (.variable _ name) | expr (.assign _ name _) | expr (.get _ name) | expr (.set _ name _)
  | stmt (.var name _) | stmt (.class name _) | param name => name.isIdentifier = true ∧ name.Legible
  | function decl | method decl => decl.name.isIdentifier = true ∧ decl.name.Legible
  | _ => True

end Node

namespace Ebnf

open Node (Legible)

theorem legible_node {layer : Layer} {left right : Expr} {op : Token} (hop : op.Legible)
    (hl : (Node.expr left).All Legible) (hr : (Node.expr right).All Legible) :
    (Node.expr (layer.node left op right)).All Legible := by
  cases layer <;> exact .two hop rfl hl hr

mutual

theorem legible_assignment : ∀ {ts : List Token} {e : Expr}, Assignment ts e →
    (∀ t ∈ ts, t.Legible) → (Node.expr e).All Legible
  | _, _, .variable hname _ he, h => by
    simp only [List.forall_mem_cons] at h
    exact .one ⟨hname, h.1⟩ rfl (legible_assignment he h.2.2)
  | _, _, .property hobject _ hname _ he, h => by
    simp only [List.forall_mem_append, List.forall_mem_cons] at h
    exact .two ⟨hname, h.2.2.1⟩ rfl (legible_call hobject h.1) (legible_assignment he h.2.2.2.2)
  | _, _, .operation he, h => legible_operation he h

theorem legible_operation : ∀ {layer : Layer} {ts : List Token} {e : Expr}, Operation layer ts e →
    (∀ t ∈ ts, t.Legible) → (Node.expr e).All Legible
  | _, _, _, .operand he, h => legible_operand he h
  | _, _, _, .operator hl _ hr, h => by
    simp only [List.forall_mem_append, List.forall_mem_cons] at h
    exact legible_node h.2.1 (legible_operation hl h.1) (legible_operand hr h.2.2)

theorem legible_operand : ∀ {layer : Layer} {ts : List Token} {e : Expr}, Operand layer ts e →
    (∀ t ∈ ts, t.Legible) → (Node.expr e).All Legible
  | _, _, _, .layer _ he, h => legible_operation he h
  | _, _, _, .unary _ he, h => legible_unary he h

theorem legible_unary : ∀ {ts : List Token} {e : Expr}, Unary ts e →
    (∀ t ∈ ts, t.Legible) → (Node.expr e).All Legible
  | _, _, .operator _ he, h => by
    rw [List.forall_mem_cons] at h
    exact .one h.1 rfl (legible_unary he h.2)
  | _, _, .call he, h => legible_call he h

theorem legible_call : ∀ {ts : List Token} {e : Expr}, Call ts e →
    (∀ t ∈ ts, t.Legible) → (Node.expr e).All Legible
  | _, _, .primary he, h => legible_primary he h
  | _, _, .call hcallee _ hargs _, h => by
    simp only [List.forall_mem_append, List.forall_mem_cons] at h
    exact .intro trivial (List.forall_mem_cons.2
      ⟨legible_call hcallee h.1, List.forall_mem_map.2 (legible_arguments hargs h.2.2.1)⟩)
  | _, _, .property hobject _ hname, h => by
    simp only [List.forall_mem_append, List.forall_mem_cons] at h
    exact .one ⟨hname, h.2.2.1⟩ rfl (legible_call hobject h.1)

theorem legible_arguments : ∀ {ts : List Token} {es : List Expr}, Arguments ts es →
    (∀ t ∈ ts, t.Legible) → ∀ e ∈ es, (Node.expr e).All Legible
  | _, _, .none, _ => List.forall_mem_nil _
  | _, _, .some hes, h => legible_argumentList hes h

theorem legible_argumentList : ∀ {ts : List Token} {es : List Expr}, ArgumentList ts es →
    (∀ t ∈ ts, t.Legible) → ∀ e ∈ es, (Node.expr e).All Legible
  | _, _, .last he, h => List.forall_mem_singleton.2 (legible_assignment he h)
  | _, _, .more he _ hes, h => by
    simp only [List.forall_mem_append, List.forall_mem_cons] at h
    exact List.forall_mem_cons.2 ⟨legible_assignment he h.1, legible_argumentList hes h.2.2⟩

theorem legible_primary : ∀ {ts : List Token} {e : Expr}, Primary ts e →
    (∀ t ∈ ts, t.Legible) → (Node.expr e).All Legible
  | _, _, .literal hl, h => .leaf (hl.legible (List.forall_mem_singleton.1 h)) rfl
  | _, _, .this _, _ => .leaf trivial rfl
  | _, _, .variable hname, h => .leaf ⟨hname, List.forall_mem_singleton.1 h⟩ rfl
  | _, _, .grouping _ he _, h => by
    simp only [List.forall_mem_append, List.forall_mem_cons] at h
    exact .one trivial rfl (legible_assignment he h.2.1)

end

theorem legible_varDeclaration {ts : List Token} {s : Stmt} (hs : VarDeclaration ts s)
    (h : ∀ t ∈ ts, t.Legible) : (Node.stmt s).All Legible := by
  cases hs with
  | plain _ hname =>
    simp only [List.forall_mem_cons] at h
    exact .leaf ⟨hname, h.2.1⟩ rfl
  | initialized _ hname _ he =>
    simp only [List.forall_mem_cons, List.forall_mem_append] at h
    exact .one ⟨hname, h.2.1⟩ rfl (legible_assignment he h.2.2.2.1)

theorem legible_expressionStatement {ts : List Token} {s : Stmt} (hs : ExpressionStatement ts s)
    (h : ∀ t ∈ ts, t.Legible) : (Node.stmt s).All Legible := by
  obtain ⟨he, -⟩ := hs
  rw [List.forall_mem_append] at h
  exact .one trivial rfl (legible_assignment he h.1)

/-- The constant that a `for` loop without a condition gets is legible. -/
theorem legible_whileForm {as bs cs : List Token} {init : Option Stmt} {test step : Option Expr}
    {body : Stmt} (hinit : ForInitializer as init) (has : ∀ t ∈ as, t.Legible)
    (htest : OptionalExpression bs test) (hbs : ∀ t ∈ bs, t.Legible)
    (hstep : OptionalExpression cs step) (hcs : ∀ t ∈ cs, t.Legible)
    (hbody : (Node.stmt body).All Legible) :
    (Node.stmt (whileForm init test step body)).All Legible := by
  have hround : (Node.stmt (withIncrement body step)).All Legible := by
    cases hstep with
    | none => exact hbody
    | some he => exact .two trivial rfl hbody (.one trivial rfl (legible_assignment he hcs))
  have hloop : (Node.stmt (whileTrue (withIncrement body step) test)).All Legible := by
    cases htest with
    | none => exact .two trivial rfl (.leaf trivial rfl) hround
    | some he => exact .two trivial rfl (legible_assignment he hbs) hround
  cases hinit with
  | «variable» hs => exact .two trivial rfl (legible_varDeclaration hs has) hloop
  | expression hs => exact .two trivial rfl (legible_expressionStatement hs has) hloop
  | none => exact hloop

theorem legible_parameters {ts names : List Token} (hp : Parameters ts names)
    (h : ∀ t ∈ ts, t.Legible) : ∀ name ∈ names, (Node.param name).All Legible := by
  cases hp with
  | none => exact List.forall_mem_nil _
  | some hp =>
    induction hp with
    | last hname =>
      rw [List.forall_mem_singleton] at h ⊢
      exact .leaf ⟨hname, h⟩ rfl
    | more hname _ _ ih =>
      simp only [List.forall_mem_cons] at h ⊢
      exact ⟨.leaf ⟨hname, h.1⟩ rfl, ih h.2.2⟩

mutual

theorem legible_statement {nearest : Bool} : ∀ {ts : List Token} {s : Stmt} {opens : Bool},
    Statement nearest ts s opens → (∀ t ∈ ts, t.Legible) → (Node.stmt s).All Legible
  | _, _, _, .expression hs, h => legible_expressionStatement hs h
  | _, _, _, .for _ _ hinit htest _ hstep _ hbody, h => by
    simp only [List.forall_mem_cons, List.forall_mem_append] at h
    exact legible_whileForm hinit h.2.2.1 htest h.2.2.2.1 hstep h.2.2.2.2.2.1
      (legible_statement hbody h.2.2.2.2.2.2.2)
  | _, _, _, .if _ _ htest _ hthen, h => by
    simp only [List.forall_mem_cons, List.forall_mem_append] at h
    exact .two trivial rfl (legible_assignment htest h.2.2.1) (legible_statement hthen h.2.2.2.2)
  | _, _, _, .ifElse _ _ htest _ hthen _ _ helse, h => by
    simp only [List.forall_mem_cons, List.forall_mem_append] at h
    exact .intro trivial (List.forall_mem_cons.2
      ⟨legible_assignment htest h.2.2.1, List.forall_mem_cons.2
        ⟨legible_statement hthen h.2.2.2.2.1,
          List.forall_mem_singleton.2 (legible_statement helse h.2.2.2.2.2.2)⟩⟩)
  | _, _, _, .print _ he _, h => by
    simp only [List.forall_mem_cons, List.forall_mem_append] at h
    exact .one trivial rfl (legible_assignment he h.2.1)
  | _, _, _, .return _ .none _, _ => .leaf trivial rfl
  | _, _, _, .return _ (.some he) _, h => by
    simp only [List.forall_mem_cons, List.forall_mem_append] at h
    exact .one trivial rfl (legible_assignment he h.2.1)
  | _, _, _, .while _ _ htest _ hbody, h => by
    simp only [List.forall_mem_cons, List.forall_mem_append] at h
    exact .two trivial rfl (legible_assignment htest h.2.2.1) (legible_statement hbody h.2.2.2.2)
  | _, _, _, .block hbody, h => .intro trivial (List.forall_mem_map.2 (legible_block hbody h))

theorem legible_declaration {nearest : Bool} : ∀ {ts : List Token} {s : Stmt},
    Declaration nearest ts s → (∀ t ∈ ts, t.Legible) → (Node.stmt s).All Legible
  | _, _, .class _ hname _ hmethods _, h => by
    simp only [List.forall_mem_cons, List.forall_mem_append] at h
    exact .intro ⟨hname, h.2.1⟩ (List.forall_mem_map.2 (legible_methods hmethods h.2.2.2.1))
  | _, _, .function _ hf, h => by
    rw [List.forall_mem_cons] at h
    exact .one trivial rfl (legible_function hf h.2).1
  | _, _, .variable hs, h => legible_varDeclaration hs h
  | _, _, .statement hs, h => legible_statement hs h

theorem legible_declarations {nearest : Bool} : ∀ {ts : List Token} {ss : List Stmt},
    Declarations nearest ts ss → (∀ t ∈ ts, t.Legible) → ∀ s ∈ ss, (Node.stmt s).All Legible
  | _, _, .nil, _ => List.forall_mem_nil _
  | _, _, .cons hs hmore, h => by
    rw [List.forall_mem_append] at h
    exact List.forall_mem_cons.2 ⟨legible_declaration hs h.1, legible_declarations hmore h.2⟩

theorem legible_block {nearest : Bool} : ∀ {ts : List Token} {ss : List Stmt},
    Block nearest ts ss → (∀ t ∈ ts, t.Legible) → ∀ s ∈ ss, (Node.stmt s).All Legible
  | _, _, .intro _ hs _, h => by
    simp only [List.forall_mem_cons, List.forall_mem_append] at h
    exact legible_declarations hs h.2.1

theorem legible_function {nearest : Bool} : ∀ {ts : List Token} {d : FunctionDecl},
    Function nearest ts d → (∀ t ∈ ts, t.Legible) →
    (Node.function d).All Legible ∧ (Node.method d).All Legible
  | _, _, .intro hname _ hparams _ hbody, h => by
    simp only [List.forall_mem_cons, List.forall_mem_append] at h
    have hparts := List.forall_mem_append.2
      ⟨List.forall_mem_map.2 (legible_parameters hparams h.2.2.1),
        List.forall_mem_map.2 (legible_block hbody h.2.2.2.2)⟩
    exact ⟨.intro ⟨hname, h.1⟩ hparts, .intro ⟨hname, h.1⟩ hparts⟩

theorem legible_methods {nearest : Bool} : ∀ {ts : List Token} {ds : List FunctionDecl},
    Methods nearest ts ds → (∀ t ∈ ts, t.Legible) → ∀ d ∈ ds, (Node.method d).All Legible
  | _, _, .nil, _ => List.forall_mem_nil _
  | _, _, .cons hd hmore, h => by
    rw [List.forall_mem_append] at h
    exact List.forall_mem_cons.2 ⟨(legible_function hd h.1).2, legible_methods hmore h.2⟩

end

end Ebnf

/-- The node has an operator of its sort, and it is legible. -/
def Node.Readable (n : Node) : Prop := n.Apt ∧ n.Legible

/-- The name of a declaration and all nodes in it are readable. -/
def FunctionDecl.Readable (decl : FunctionDecl) : Prop :=
  (decl.name.isIdentifier = true ∧ decl.name.Legible) ∧
    ∀ c ∈ decl.params.map Node.param ++ decl.body.map Node.stmt, c.All Node.Readable

theorem FunctionDecl.Readable.of_function {decl : FunctionDecl}
    (h : (Node.function decl).All Node.Readable) : decl.Readable := by
  cases decl with
  | mk => exact ⟨h.self.2, fun _ hc => h.part hc⟩

theorem FunctionDecl.Readable.of_method {decl : FunctionDecl}
    (h : (Node.method decl).All Node.Readable) : decl.Readable := by
  cases decl with
  | mk => exact ⟨h.self.2, fun _ hc => h.part hc⟩

/-- What is read from legible tokens has no other tokens in it. -/
theorem Grammar.parse_readable {tokens : List Token} (h : ∀ t ∈ tokens, t.Legible)
    {firstId : NodeId} {s : Stmt} (hs : s ∈ (parse tokens firstId).statements) :
    (Node.stmt s).All Node.Readable := by
  obtain ⟨us, hus, hprogram, -⟩ := parse_salvages tokens firstId
  have hbody : ∀ t ∈ us, t.Legible := fun t ht => h t (List.takeWhile_subset _ (hus.subset ht))
  exact fun p n hn => ⟨Ebnf.apt_declarations hprogram s hs p n hn,
    Ebnf.legible_declarations hprogram hbody s hs p n hn⟩

/-! ## Outlines -/

open Outline (PlainWord Plain)

theorem IsName.plainWord {text : String} (h : IsName text) : PlainWord text := by
  refine ⟨?_, fun c hc => Bool.eq_false_iff.2 fun hbreak => ?_⟩
  · rintro rfl
    cases h.first
  · have hword := List.all_eq_true.1 h.word c hc
    obtain rfl | rfl | rfl := Outline.isBreak_iff.1 hbreak <;> cases hword

theorem Literal.Legible.plainWord {l : Literal} (h : l.Legible) : PlainWord l.text := by
  cases l with
  | number x =>
    obtain ⟨hne, hchars⟩ := Decimal.inFull_chars h
    refine ⟨hne, fun c hc => Bool.eq_false_iff.2 fun hbreak => ?_⟩
    have hdigit := hchars c hc
    obtain rfl | rfl | rfl := Outline.isBreak_iff.1 hbreak <;> exact absurd hdigit (by decide)
  | string => exact h.elim
  | bool b => cases b <;> decide
  | nil => decide

/-- The operators of nodes. -/
def Node.operators : List Symbol := unaryOperators ++ binaryOperators ++ logicalOperators

theorem Token.Legible.plainWord {op : Token} (h : op.Legible) {s : Symbol}
    (hs : s ∈ Node.operators) (hk : op.kind = .symbol s) : PlainWord op.lexeme := by
  have hall : ∀ s ∈ Node.operators, PlainWord s.text := by decide
  rw [h.lexeme_eq hk]
  exact hall s hs

theorem Token.plain_name {name : Token} (h : name.isIdentifier = true ∧ name.Legible) :
    name.outline.Plain :=
  .word (h.2.isName h.1).plainWord

mutual

theorem Expr.plain_outline : ∀ e : Expr, (Node.expr e).All Node.Readable → e.outline.Plain
  | .literal _, h => .word h.self.2.plainWord
  | .grouping e, h => by
    have he := Expr.plain_outline e (h.part (by simp [Node.children]))
    exact .form (by decide +kernel) (List.forall_mem_singleton.2 he)
  | .unary op e, h => by
    obtain ⟨⟨s, hs, hk⟩, hop⟩ := h.self
    have he := Expr.plain_outline e (h.part (by simp [Node.children]))
    exact .form (hop.plainWord (by simp [Node.operators, hs]) hk) (List.forall_mem_singleton.2 he)
  | .binary left op right, h | .logical left op right, h => by
    obtain ⟨⟨s, hs, hk⟩, hop⟩ := h.self
    have hl := Expr.plain_outline left (h.part (by simp [Node.children]))
    have hr := Expr.plain_outline right (h.part (by simp [Node.children]))
    exact .form (hop.plainWord (by simp [Node.operators, hs]) hk) (by simp [hl, hr])
  | .variable _ _, h => Token.plain_name h.self.2
  | .assign _ name e, h => by
    have he := Expr.plain_outline e (h.part (by simp [Node.children]))
    exact .form (by decide +kernel) (by simp [Token.plain_name h.self.2, he])
  | .call callee _ args, h => by
    have hc := Expr.plain_outline callee (h.part (by simp [Node.children]))
    have ha := Expr.plain_outlines args fun e he => h.part (by simp [Node.children, he])
    exact .form (by decide +kernel) (List.forall_mem_cons.2 ⟨hc, ha⟩)
  | .get object name, h => by
    have ho := Expr.plain_outline object (h.part (by simp [Node.children]))
    exact .form (by decide +kernel) (by simp [Token.plain_name h.self.2, ho])
  | .set object name e, h => by
    have ho := Expr.plain_outline object (h.part (by simp [Node.children]))
    have he := Expr.plain_outline e (h.part (by simp [Node.children]))
    have hplace : (Outline.list [.word ".", object.outline, name.outline]).Plain :=
      .form (by decide +kernel) (by simp [Token.plain_name h.self.2, ho])
    exact .form (by decide +kernel) (by simp [hplace, he])
  | .this _ _, _ => .word (by decide +kernel)

theorem Expr.plain_outlines : ∀ es : List Expr, (∀ e ∈ es, (Node.expr e).All Node.Readable) →
    ∀ o ∈ Expr.outlines es, o.Plain
  | [], _ => List.forall_mem_nil _
  | e :: rest, h => by
    obtain ⟨he, hrest⟩ := List.forall_mem_cons.1 h
    exact List.forall_mem_cons.2 ⟨Expr.plain_outline e he, Expr.plain_outlines rest hrest⟩

end

mutual

theorem Stmt.plain_outline : ∀ s : Stmt, (Node.stmt s).All Node.Readable → s.outline.Plain
  | .expression e, h | .print e, h | .ret _ (some e), h => by
    have he := e.plain_outline (h.part (by simp [Node.children]))
    exact .form (by decide +kernel) (List.forall_mem_singleton.2 he)
  | .var _ none, h => .form (by decide +kernel) (List.forall_mem_singleton.2 (Token.plain_name h.self.2))
  | .var _ (some e), h => by
    have he := e.plain_outline (h.part (by simp [Node.children]))
    exact .form (by decide +kernel) (by simp [Token.plain_name h.self.2, he])
  | .block body, h =>
    .form (by decide +kernel) (Stmt.plain_outlines body fun s hs => h.part (by simp [Node.children, hs]))
  | .cond test thenPart none, h => by
    have ht := test.plain_outline (h.part (by simp [Node.children]))
    have hthen := Stmt.plain_outline thenPart (h.part (by simp [Node.children]))
    exact .form (by decide +kernel) (by simp [ht, hthen])
  | .cond test thenPart (some elsePart), h => by
    have ht := test.plain_outline (h.part (by simp [Node.children]))
    have hthen := Stmt.plain_outline thenPart (h.part (by simp [Node.children]))
    have helse := Stmt.plain_outline elsePart (h.part (by simp [Node.children]))
    exact .form (by decide +kernel) (by simp [ht, hthen, helse])
  | .while test body, h => by
    have ht := test.plain_outline (h.part (by simp [Node.children]))
    have hbody := Stmt.plain_outline body (h.part (by simp [Node.children]))
    exact .form (by decide +kernel) (by simp [ht, hbody])
  | .function decl, h =>
    FunctionDecl.plain_outline decl (.of_function (h.part (by simp [Node.children])))
  | .ret _ none, _ => .form (by decide +kernel) (List.forall_mem_nil _)
  | .class _ methods, h => by
    refine .form (by decide +kernel) (List.forall_mem_cons.2 ⟨Token.plain_name h.self.2, ?_⟩)
    exact FunctionDecl.plain_outlines methods fun d hd =>
      .of_method (h.part (by simp [Node.children, hd]))

theorem Stmt.plain_outlines : ∀ ss : List Stmt, (∀ s ∈ ss, (Node.stmt s).All Node.Readable) →
    ∀ o ∈ Stmt.outlines ss, o.Plain
  | [], _ => List.forall_mem_nil _
  | s :: rest, h => by
    obtain ⟨hs, hrest⟩ := List.forall_mem_cons.1 h
    exact List.forall_mem_cons.2 ⟨Stmt.plain_outline s hs, Stmt.plain_outlines rest hrest⟩

theorem FunctionDecl.plain_outline : ∀ d : FunctionDecl, d.Readable → d.outline.Plain
  | .mk _ params body, ⟨hname, hparts⟩ => by
    obtain ⟨hparams, hbody⟩ := List.forall_mem_append.1 hparts
    have hnames : ∀ o ∈ params.map Token.outline, o.Plain := List.forall_mem_map.2 fun t ht =>
      Token.plain_name (hparams _ (List.mem_map_of_mem ht)).self.2
    refine .form (by decide +kernel) (List.forall_mem_cons.2 ⟨Token.plain_name hname,
      List.forall_mem_cons.2 ⟨.list hnames, ?_⟩⟩)
    exact Stmt.plain_outlines body fun s hs => hbody _ (List.mem_map_of_mem hs)

theorem FunctionDecl.plain_outlines : ∀ ds : List FunctionDecl, (∀ d ∈ ds, d.Readable) →
    ∀ o ∈ FunctionDecl.outlines ds, o.Plain
  | [], _ => List.forall_mem_nil _
  | d :: rest, h => by
    obtain ⟨hd, hrest⟩ := List.forall_mem_cons.1 h
    exact List.forall_mem_cons.2
      ⟨FunctionDecl.plain_outline d hd, FunctionDecl.plain_outlines rest hrest⟩

end

end Lox
