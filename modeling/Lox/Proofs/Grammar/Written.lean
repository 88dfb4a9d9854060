/-
Trees written back. The words of a tree are what the program says that it was
read from, token by token and without the lines. Every derivation without `for`
spends its tokens on the words of its tree (`words_declarations`), so what is
read of tokens with syntax errors is said by some of them, in their order
(`parse_words_sublist`).
-/
import Lox.Proofs.Grammar.SalvageStatement

namespace Lox

/-- What a token says: a mark or a keyword, a name, or a constant. -/
inductive Word
  | symbol (s : Symbol)
  | identifier (name : String)
  | string (text : String)
  | number (value : Float)
  | eof

def Token.word (t : Token) : Word :=
  match t.kind with
  | .symbol s => .symbol s
  | .identifier => .identifier t.lexeme
  | .string text => .string text
  | .number value => .number value
  | .eof => .eof

def Literal.word : Literal → Word
  | .number value => .number value
  | .string text => .string text
  | .bool true => .symbol .kwTrue
  | .bool false => .symbol .kwFalse
  | .nil => .symbol .kwNil

/-- The parts of a list in a program, with commas between them. -/
def separated (parts : List (List Word)) : List Word := [Word.symbol .comma].intercalate parts

mutual

/-- The words of an expression. -/
def Expr.words : Expr → List Word
  | .literal l => [l.word]
  | .grouping inner => .symbol .leftParen :: (inner.words ++ [.symbol .rightParen])
  | .unary op operand => op.word :: operand.words
  | .binary left op right => left.words ++ op.word :: right.words
  | .logical left op right => left.words ++ op.word :: right.words
  | .variable _ name => [name.word]
  | .assign _ name value => name.word :: .symbol .equal :: value.words
  | .call callee _ args =>
    callee.words ++ .symbol .leftParen :: (separated (Expr.eachWords args) ++ [.symbol .rightParen])
  | .get object name => object.words ++ [.symbol .dot, name.word]
  | .set object name value =>
    object.words ++ .symbol .dot :: name.word :: .symbol .equal :: value.words
  | .this _ keyword => [keyword.word]

/-- The words of each expression of a list. -/
def Expr.eachWords : List Expr → List (List Word)
  | [] => []
  | e :: rest => e.words :: Expr.eachWords rest

end

mutual

/-- The words of a statement. -/
def Stmt.words : Stmt → List Word
  | .expression e => e.words ++ [.symbol .semicolon]
  | .print e => .symbol .kwPrint :: (e.words ++ [.symbol .semicolon])
  | .var name none => [.symbol .kwVar, name.word, .symbol .semicolon]
  | .var name (some e) =>
    .symbol .kwVar :: name.word :: .symbol .equal :: (e.words ++ [.symbol .semicolon])
  | .block body => .symbol .leftBrace :: (Stmt.allWords body ++ [.symbol .rightBrace])
  | .cond test thenPart none =>
    .symbol .kwIf :: .symbol .leftParen :: (test.words ++ .symbol .rightParen :: thenPart.words)
  | .cond test thenPart (some elsePart) =>
    .symbol .kwIf :: .symbol .leftParen :: (test.words ++ .symbol .rightParen ::
      (thenPart.words ++ .symbol .kwElse :: elsePart.words))
  | .while test body =>
    .symbol .kwWhile :: .symbol .leftParen :: (test.words ++ .symbol .rightParen :: body.words)
  | .function decl => .symbol .kwFun :: decl.words
  | .ret keyword none => [keyword.word, .symbol .semicolon]
  | .ret keyword (some e) => keyword.word :: (e.words ++ [.symbol .semicolon])
  | .class name methods =>
    .symbol .kwClass :: name.word :: .symbol .leftBrace ::
      (FunctionDecl.allWords methods ++ [.symbol .rightBrace])

/-- The words of a list of statements, one behind the other. -/
def Stmt.allWords : List Stmt → List Word
  | [] => []
  | s :: rest => s.words ++ Stmt.allWords rest

/-- The words of a function, from its name on. -/
def FunctionDecl.words : FunctionDecl → List Word
  | .mk name params body =>
    name.word :: .symbol .leftParen :: (separated (params.map fun t => [t.word]) ++
      .symbol .rightParen :: .symbol .leftBrace :: (Stmt.allWords body ++ [.symbol .rightBrace]))

/-- The words of a list of methods, one behind the other. -/
def FunctionDecl.allWords : List FunctionDecl → List Word
  | [] => []
  | d :: rest => d.words ++ FunctionDecl.allWords rest

end

theorem Token.word_of_is {t : Token} {s : Symbol} (h : t.is s = true) : t.word = .symbol s := by
  rw [Token.word, Token.is_iff.1 h]

theorem separated_singleton (part : List Word) : separated [part] = part :=
  List.intercalate_singleton

theorem separated_cons {parts : List (List Word)} (part : List Word) (h : parts ≠ []) :
    separated (part :: parts) = part ++ .symbol .comma :: separated parts := by
  obtain ⟨next, rest, rfl⟩ := List.exists_cons_of_ne_nil h
  simp [separated, List.intercalate_cons_cons]

namespace Ebnf

/-! ## Expressions -/

theorem word_constant {t : Token} {l : Literal} (h : Constant t l) : l.word = t.word := by
  cases h with
  | number h => rw [Token.word, h]; rfl
  | string h => rw [Token.word, h]; rfl
  | true h => exact (Token.word_of_is h).symm
  | false h => exact (Token.word_of_is h).symm
  | nil h => exact (Token.word_of_is h).symm

theorem words_node (layer : Layer) (left : Expr) (op : Token) (right : Expr) :
    (layer.node left op right).words = left.words ++ op.word :: right.words := by
  cases layer <;> exact Expr.words.eq_def _

mutual

theorem words_assignment : ∀ {ts : List Token} {e : Expr}, Assignment ts e →
    e.words = ts.map Token.word
  | _, _, .variable _ hequals he => by
    simp [Expr.words, Token.word_of_is hequals, words_assignment he]
  | _, _, .property hobject hdot _ hequals he => by
    simp [Expr.words, Token.word_of_is hdot, Token.word_of_is hequals, words_call hobject,
      words_assignment he]
  | _, _, .operation he => words_operation he

theorem words_operation : ∀ {layer : Layer} {ts : List Token} {e : Expr}, Operation layer ts e →
    e.words = ts.map Token.word
  | _, _, _, .operand he => words_operand he
  | _, _, _, .operator hl _ hr => by
    simp [words_node, words_operation hl, words_operand hr]

theorem words_operand : ∀ {layer : Layer} {ts : List Token} {e : Expr}, Operand layer ts e →
    e.words = ts.map Token.word
  | _, _, _, .layer _ he => words_operation he
  | _, _, _, .unary _ he => words_unary he

theorem words_unary : ∀ {ts : List Token} {e : Expr}, Unary ts e → e.words = ts.map Token.word
  | _, _, .operator _ he => by simp [Expr.words, words_unary he]
  | _, _, .call he => words_call he

theorem words_call : ∀ {ts : List Token} {e : Expr}, Call ts e → e.words = ts.map Token.word
  | _, _, .primary he => words_primary he
  | _, _, .call hcallee hopen hargs hclose => by
    simp [Expr.words, Token.word_of_is hopen, Token.word_of_is hclose, words_call hcallee,
      words_arguments hargs]
  | _, _, .property hobject hdot _ => by
    simp [Expr.words, Token.word_of_is hdot, words_call hobject]

theorem words_arguments : ∀ {ts : List Token} {es : List Expr}, Arguments ts es →
    separated (Expr.eachWords es) = ts.map Token.word
  | _, _, .none => rfl
  | _, _, .some hes => words_argumentList hes

theorem words_argumentList : ∀ {ts : List Token} {es : List Expr}, ArgumentList ts es →
    separated (Expr.eachWords es) = ts.map Token.word
  | _, _, .last he => (separated_singleton _).trans (words_assignment he)
  | _, _, .more he hcomma hes => by
    have hne : ∀ {us es}, ArgumentList us es → Expr.eachWords es ≠ [] := by
      intro us es h
      cases h <;> exact List.cons_ne_nil _ _
    simp [Expr.eachWords, separated_cons _ (hne hes), Token.word_of_is hcomma,
      words_assignment he, words_argumentList hes]

theorem words_primary : ∀ {ts : List Token} {e : Expr}, Primary ts e → e.words = ts.map Token.word
  | _, _, .literal hl => by simp [Expr.words, word_constant hl]
  | _, _, .this _ => Expr.words.eq_def _
  | _, _, .variable _ => Expr.words.eq_def _
  | _, _, .grouping hopen he hclose => by
    simp [Expr.words, Token.word_of_is hopen, Token.word_of_is hclose, words_assignment he]

end

/-! ## Statements -/

theorem words_varDeclaration {ts : List Token} {s : Stmt} (h : VarDeclaration ts s) :
    s.words = ts.map Token.word := by
  cases h with
  | plain hvar _ hend => simp [Stmt.words, Token.word_of_is hvar, Token.word_of_is hend]
  | initialized hvar _ hequals he hend =>
    simp [Stmt.words, Token.word_of_is hvar, Token.word_of_is hequals, Token.word_of_is hend,
      words_assignment he]

theorem words_parameters {ts names : List Token} (h : Parameters ts names) :
    separated (names.map fun t => [t.word]) = ts.map Token.word := by
  cases h with
  | none => rfl
  | some h =>
    induction h with
    | last => exact separated_singleton _
    | @more name comma ts names _ hcomma hmore ih =>
      have hne : (names.map fun t => [t.word]) ≠ [] := by cases hmore <;> exact List.cons_ne_nil _ _
      simp [separated_cons _ hne, Token.word_of_is hcomma, ih]

mutual

theorem words_statement {nearest : Bool} : ∀ {ts : List Token} {s : Stmt} {opens : Bool},
    Statement nearest ts s opens → (∀ t ∈ ts, t.is .kwFor = false) → s.words = ts.map Token.word
  | _, _, _, .expression (.intro he hend), _ => by
    simp [Stmt.words, Token.word_of_is hend, words_assignment he]
  -- what a `for` is read as does not say so any more
  | _, _, _, .for hfor _ _ _ _ _ _ _, h => by simp [hfor] at h
  | _, _, _, .if hif hopen htest hclose hthen, h => by
    simp only [List.forall_mem_cons, List.forall_mem_append] at h
    simp [Stmt.words, Token.word_of_is hif, Token.word_of_is hopen, Token.word_of_is hclose,
      words_assignment htest, words_statement hthen h.2.2.2.2]
  | _, _, _, .ifElse hif hopen htest hclose hthen _ helse hother, h => by
    simp only [List.forall_mem_cons, List.forall_mem_append] at h
    simp [Stmt.words, Token.word_of_is hif, Token.word_of_is hopen, Token.word_of_is hclose,
      Token.word_of_is helse, words_assignment htest, words_statement hthen h.2.2.2.2.1,
      words_statement hother h.2.2.2.2.2.2]
  | _, _, _, .print hprint he hend, _ => by
    simp [Stmt.words, Token.word_of_is hprint, Token.word_of_is hend, words_assignment he]
  | _, _, _, .return _ .none hend, _ => by simp [Stmt.words, Token.word_of_is hend]
  | _, _, _, .return _ (.some he) hend, _ => by
    simp [Stmt.words, Token.word_of_is hend, words_assignment he]
  | _, _, _, .while hwhile hopen htest hclose hbody, h => by
    simp only [List.forall_mem_cons, List.forall_mem_append] at h
    simp [Stmt.words, Token.word_of_is hwhile, Token.word_of_is hopen, Token.word_of_is hclose,
      words_assignment htest, words_statement hbody h.2.2.2.2]
  | _, _, _, .block hbody, h => by rw [Stmt.words, words_block hbody h]

theorem words_declaration {nearest : Bool} : ∀ {ts : List Token} {s : Stmt},
    Declaration nearest ts s → (∀ t ∈ ts, t.is .kwFor = false) → s.words = ts.map Token.word
  | _, _, .class hclass _ hopen hmethods hclose, h => by
    simp only [List.forall_mem_cons, List.forall_mem_append] at h
    simp [Stmt.words, Token.word_of_is hclass, Token.word_of_is hopen, Token.word_of_is hclose,
      words_methods hmethods h.2.2.2.1]
  | _, _, .function hfun hf, h => by
    rw [List.forall_mem_cons] at h
    simp [Stmt.words, Token.word_of_is hfun, words_function hf h.2]
  | _, _, .variable hs, _ => words_varDeclaration hs
  | _, _, .statement hs, h => words_statement hs h

theorem words_declarations {nearest : Bool} : ∀ {ts : List Token} {ss : List Stmt},
    Declarations nearest ts ss → (∀ t ∈ ts, t.is .kwFor = false) →
    Stmt.allWords ss = ts.map Token.word
  | _, _, .nil, _ => rfl
  | _, _, .cons hs hmore, h => by
    rw [List.forall_mem_append] at h
    rw [Stmt.allWords, words_declaration hs h.1, words_declarations hmore h.2, List.map_append]

theorem words_block {nearest : Bool} : ∀ {ts : List Token} {ss : List Stmt},
    Block nearest ts ss → (∀ t ∈ ts, t.is .kwFor = false) →
    .symbol .leftBrace :: (Stmt.allWords ss ++ [.symbol .rightBrace]) = ts.map Token.word
  | _, _, .intro hopen hs hclose, h => by
    simp only [List.forall_mem_cons, List.forall_mem_append] at h
    simp [Token.word_of_is hopen, Token.word_of_is hclose, words_declarations hs h.2.1]

theorem words_function {nearest : Bool} : ∀ {ts : List Token} {d : FunctionDecl},
    Function nearest ts d → (∀ t ∈ ts, t.is .kwFor = false) → d.words = ts.map Token.word
  | _, _, .intro _ hopen hparams hclose hbody, h => by
    simp only [List.forall_mem_cons, List.forall_mem_append] at h
    simp [FunctionDecl.words, Token.word_of_is hopen, Token.word_of_is hclose,
      words_parameters hparams, words_block hbody h.2.2.2.2]

theorem words_methods {nearest : Bool} : ∀ {ts : List Token} {ds : List FunctionDecl},
    Methods nearest ts ds → (∀ t ∈ ts, t.is .kwFor = false) →
    FunctionDecl.allWords ds = ts.map Token.word
  | _, _, .nil, _ => rfl
  | _, _, .cons hd hmore, h => by
    rw [List.forall_mem_append] at h
    rw [FunctionDecl.allWords, words_function hd h.1, words_methods hmore h.2, List.map_append]

end

end Ebnf

namespace Grammar

/-- Reading drops tokens where they are wrong, but what it keeps stands in the program: without a
`for`, the trees written back are some of the tokens in front of the end, in their order. -/
theorem parse_words_sublist (tokens : List Token) (firstId : NodeId)
    (h : ∀ t ∈ tokens, t.is .kwFor = false) :
    (Stmt.allWords (parse tokens firstId).statements).Sublist
      ((bodyOf tokens).map Token.word) := by
  obtain ⟨us, hus, hprogram, -⟩ := parse_salvages tokens firstId
  have hfree : ∀ t ∈ us, t.is .kwFor = false := fun t ht =>
    h t ((List.takeWhile_sublist _).mem (hus.mem ht))
  rw [Ebnf.words_declarations hprogram hfree]
  exact hus.map Token.word

/-- Of `{ ) ; nil = true; print nil; }` the block is left, without the lone parenthesis and without
what cannot be assigned. -/
theorem words_brokenBlock :
    let tokens : List Token := [Symbol.leftBrace, .rightParen, .semicolon, .kwNil, .equal, .kwTrue,
      .semicolon, .kwPrint, .kwNil, .semicolon, .rightBrace].map fun s => ⟨.symbol s, s.text, 1⟩
    (parse tokens 0).errors.length = 2 ∧
      (parse tokens 0).statements =
        [.block [.expression (.literal .nil), .print (.literal .nil)]] ∧
      (Stmt.allWords (parse tokens 0).statements).Sublist ((bodyOf tokens).map Token.word) := by
  intro tokens
  refine ⟨?_, ?_, parse_words_sublist tokens 0 (by decide)⟩
  · with_unfolding_all rfl
  · with_unfolding_all rfl

end Grammar

end Lox
