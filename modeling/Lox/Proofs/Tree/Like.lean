/-
Trees of one shape. Two trees are alike if they differ at most in the lines of
their tokens and in the numbers of their nodes; a `Likeness` says which lines
and which numbers may stand for each other.
-/
import Lox.Tree.References
import Mathlib.Data.List.Forall2

namespace Lox

/-- On which lines a token may stand in the other tree, and which numbers of nodes may stand for
each other. A token may always stand where it stands. -/
structure Likeness where
  line : Token → Nat → Prop
  node : NodeId → NodeId → Prop
  line_refl : ∀ t, line t t.line
  /-- A receiver that no token spells out stands where the name of its method stands. -/
  line_receiver : ∀ {t l}, line t l → line (.identifier receiverName t.line) l

/-- A token of the same kind and text. -/
structure Token.Like (L : Likeness) (t t' : Token) : Prop where
  kind : t'.kind = t.kind
  lexeme : t'.lexeme = t.lexeme
  line : L.line t t'.line

theorem Token.Like.is {L : Likeness} {t t' : Token} (h : t.Like L t') (s : Symbol) :
    t'.is s = t.is s := by
  unfold Token.is
  rw [h.kind]

theorem Token.Like.isIdentifier {L : Likeness} {t t' : Token} (h : t.Like L t') :
    t'.isIdentifier = t.isIdentifier := by
  unfold Token.isIdentifier
  rw [h.kind]

/-- An expression of the same shape, with tokens and numbers that are alike. -/
inductive Expr.Like (L : Likeness) : Expr → Expr → Prop
  | literal (l) : Like L (.literal l) (.literal l)
  | grouping {e e'} : Like L e e' → Like L (.grouping e) (.grouping e')
  | unary {op op' e e'} : op.Like L op' → Like L e e' → Like L (.unary op e) (.unary op' e')
  | binary {left left' op op' right right'} : Like L left left' → op.Like L op' →
    Like L right right' → Like L (.binary left op right) (.binary left' op' right')
  | logical {left left' op op' right right'} : Like L left left' → op.Like L op' →
    Like L right right' → Like L (.logical left op right) (.logical left' op' right')
  | variable {id id' name name'} : L.node id id' → name.Like L name' →
    Like L (.variable id name) (.variable id' name')
  | assign {id id' name name' e e'} : L.node id id' → name.Like L name' → Like L e e' →
    Like L (.assign id name e) (.assign id' name' e')
  | call {callee callee' paren paren' args args'} : Like L callee callee' →
    paren.Like L paren' → List.Forall₂ (Like L) args args' →
    Like L (.call callee paren args) (.call callee' paren' args')
  | get {object object' name name'} : Like L object object' → name.Like L name' →
    Like L (.get object name) (.get object' name')
  | set {object object' name name' e e'} : Like L object object' → name.Like L name' →
    Like L e e' → Like L (.set object name e) (.set object' name' e')
  | this {id id' keyword keyword'} : L.node id id' → keyword.Like L keyword' →
    Like L (.this id keyword) (.this id' keyword')

mutual

/-- A statement of the same shape. -/
inductive Stmt.Like (L : Likeness) : Stmt → Stmt → Prop
  | expression {e e' : Expr} : e.Like L e' → Stmt.Like L (.expression e) (.expression e')
  | print {e e' : Expr} : e.Like L e' → Stmt.Like L (.print e) (.print e')
  | var {name name' : Token} {init init'} : name.Like L name' →
    Option.Rel (Expr.Like L) init init' → Stmt.Like L (.var name init) (.var name' init')
  | block {body body'} : List.Forall₂ (Stmt.Like L) body body' →
    Stmt.Like L (.block body) (.block body')
  | cond {test test' : Expr} {thenPart thenPart' elsePart elsePart'} : test.Like L test' →
    Stmt.Like L thenPart thenPart' → Option.Rel (Stmt.Like L) elsePart elsePart' →
    Stmt.Like L (.cond test thenPart elsePart) (.cond test' thenPart' elsePart')
  | while {test test' : Expr} {body body'} : test.Like L test' → Stmt.Like L body body' →
    Stmt.Like L (.while test body) (.while test' body')
  | function {decl decl'} : FunctionDecl.Like L decl decl' →
    Stmt.Like L (.function decl) (.function decl')
  | ret {keyword keyword' : Token} {value value'} : keyword.Like L keyword' →
    Option.Rel (Expr.Like L) value value' →
    Stmt.Like L (.ret keyword value) (.ret keyword' value')
  | class {name name' : Token} {methods methods'} : name.Like L name' →
    List.Forall₂ (FunctionDecl.Like L) methods methods' →
    Stmt.Like L (.class name methods) (.class name' methods')

/-- A declaration of the same shape. -/
inductive FunctionDecl.Like (L : Likeness) : FunctionDecl → FunctionDecl → Prop
  | mk {name name' : Token} {params params' body body'} : name.Like L name' →
    List.Forall₂ (Token.Like L) params params' → List.Forall₂ (Stmt.Like L) body body' →
    FunctionDecl.Like L (.mk name params body) (.mk name' params' body')

end

/-! ## Declarations -/

namespace FunctionDecl.Like

variable {L : Likeness} {decl decl' : FunctionDecl}

theorem name (h : decl.Like L decl') : decl.name.Like L decl'.name := by
  cases h with
  | mk hname => exact hname

theorem params (h : decl.Like L decl') : List.Forall₂ (Token.Like L) decl.params decl'.params := by
  cases h with
  | mk _ hparams => exact hparams

theorem body (h : decl.Like L decl') : List.Forall₂ (Stmt.Like L) decl.body decl'.body := by
  cases h with
  | mk _ _ hbody => exact hbody

theorem arity (h : decl.Like L decl') : decl'.arity = decl.arity := h.params.length_eq.symm

theorem isInit (h : decl.Like L decl') : decl'.isInit = decl.isInit := by
  rw [FunctionDecl.isInit, FunctionDecl.isInit, h.name.lexeme]

end FunctionDecl.Like

/-! ## A tree is like itself -/

section

variable {L : Likeness}

theorem Token.like_refl (t : Token) : t.Like L t := ⟨rfl, rfl, L.line_refl t⟩

theorem Token.allLike_refl (ts : List Token) : List.Forall₂ (Token.Like L) ts ts :=
  List.forall₂_same.2 fun t _ => t.like_refl

mutual

theorem Expr.like_refl : ∀ e : Expr, (∀ ref ∈ e.references, L.node ref.id ref.id) → e.Like L e
  | .literal l, _ => .literal l
  | .grouping e, h => .grouping (Expr.like_refl e h)
  | .unary op e, h => .unary op.like_refl (Expr.like_refl e h)
  | .binary left op right, h =>
    have ⟨hl, hr⟩ := List.forall_mem_append.1 h
    .binary (Expr.like_refl left hl) op.like_refl (Expr.like_refl right hr)
  | .logical left op right, h =>
    have ⟨hl, hr⟩ := List.forall_mem_append.1 h
    .logical (Expr.like_refl left hl) op.like_refl (Expr.like_refl right hr)
  | .variable _ name, h => .variable (h _ (List.mem_singleton.2 rfl)) name.like_refl
  | .assign _ name e, h =>
    have ⟨hid, he⟩ := List.forall_mem_cons.1 h
    .assign hid name.like_refl (Expr.like_refl e he)
  | .call callee paren args, h =>
    have ⟨hc, ha⟩ := List.forall_mem_append.1 h
    .call (Expr.like_refl callee hc) paren.like_refl (Expr.allLike_refl args ha)
  | .get object name, h => .get (Expr.like_refl object h) name.like_refl
  | .set object name e, h =>
    have ⟨ho, he⟩ := List.forall_mem_append.1 h
    .set (Expr.like_refl object ho) name.like_refl (Expr.like_refl e he)
  | .this _ keyword, h =>
    .this (h _ (List.mem_singleton.2 rfl)) keyword.like_refl

theorem Expr.allLike_refl : ∀ es : List Expr,
    (∀ ref ∈ Expr.allReferences es, L.node ref.id ref.id) → List.Forall₂ (Expr.Like L) es es
  | [], _ => .nil
  | e :: rest, h =>
    have ⟨he, hr⟩ := List.forall_mem_append.1 h
    .cons (Expr.like_refl e he) (Expr.allLike_refl rest hr)

end

mutual

theorem Stmt.like_refl : ∀ s : Stmt, (∀ ref ∈ s.references, L.node ref.id ref.id) → s.Like L s
  | .expression e, h => .expression (e.like_refl h)
  | .print e, h => .print (e.like_refl h)
  | .var name none, _ => .var name.like_refl .none
  | .var name (some e), h => .var name.like_refl (.some (e.like_refl h))
  | .block body, h => .block (Stmt.allLike_refl body h)
  | .cond test thenPart none, h =>
    have ⟨ht, hthen⟩ := List.forall_mem_append.1 h
    .cond (test.like_refl ht) (Stmt.like_refl thenPart hthen) .none
  | .cond test thenPart (some elsePart), h =>
    have ⟨h, helse⟩ := List.forall_mem_append.1 h
    have ⟨ht, hthen⟩ := List.forall_mem_append.1 h
    .cond (test.like_refl ht) (Stmt.like_refl thenPart hthen)
      (.some (Stmt.like_refl elsePart helse))
  | .while test body, h =>
    have ⟨ht, hb⟩ := List.forall_mem_append.1 h
    .while (test.like_refl ht) (Stmt.like_refl body hb)
  | .function decl, h => .function (FunctionDecl.like_refl decl h)
  | .ret keyword none, _ => .ret keyword.like_refl .none
  | .ret keyword (some e), h => .ret keyword.like_refl (.some (e.like_refl h))
  | .class name methods, h => .class name.like_refl (FunctionDecl.allLike_refl methods h)

theorem Stmt.allLike_refl : ∀ ss : List Stmt,
    (∀ ref ∈ Stmt.allReferences ss, L.node ref.id ref.id) → List.Forall₂ (Stmt.Like L) ss ss
  | [], _ => .nil
  | s :: rest, h =>
    have ⟨hs, hr⟩ := List.forall_mem_append.1 h
    .cons (Stmt.like_refl s hs) (Stmt.allLike_refl rest hr)

theorem FunctionDecl.like_refl : ∀ decl : FunctionDecl,
    (∀ ref ∈ decl.references, L.node ref.id ref.id) → decl.Like L decl
  | .mk name params body, h =>
    .mk name.like_refl (Token.allLike_refl params) (Stmt.allLike_refl body h)

theorem FunctionDecl.allLike_refl : ∀ decls : List FunctionDecl,
    (∀ ref ∈ FunctionDecl.allReferences decls, L.node ref.id ref.id) →
      List.Forall₂ (FunctionDecl.Like L) decls decls
  | [], _ => .nil
  | d :: rest, h =>
    have ⟨hd, hr⟩ := List.forall_mem_append.1 h
    .cons (FunctionDecl.like_refl d hd) (FunctionDecl.allLike_refl rest hr)

end

end

/-- Every node may keep its number. -/
class Likeness.Numbered (L : Likeness) : Prop where
  node_refl : ∀ id, L.node id id

section

variable {L : Likeness}

instance : Std.Refl (Token.Like L) := ⟨Token.like_refl⟩

instance forall₂Refl {α : Type} {R : α → α → Prop} [Std.Refl R] : Std.Refl (List.Forall₂ R) :=
  ⟨List.forall₂_refl⟩

instance optionRelRefl {α : Type} {R : α → α → Prop} [Std.Refl R] : Std.Refl (Option.Rel R) :=
  ⟨fun
    | none => .none
    | some a => .some (Std.Refl.refl a)⟩

variable [L.Numbered]

instance : Std.Refl (Expr.Like L) :=
  ⟨fun e => e.like_refl fun ref _ => Likeness.Numbered.node_refl ref.id⟩

instance : Std.Refl (Stmt.Like L) :=
  ⟨fun s => s.like_refl fun ref _ => Likeness.Numbered.node_refl ref.id⟩

instance : Std.Refl (FunctionDecl.Like L) :=
  ⟨fun d => d.like_refl fun ref _ => Likeness.Numbered.node_refl ref.id⟩

end

/-! ## Trees that are alike in all -/

/-- Only the same line and the same number may stand for one. -/
structure Likeness.Exact (L : Likeness) : Prop where
  line : ∀ {t l}, L.line t l → l = t.line
  node : ∀ {id id'}, L.node id id' → id' = id

/-- Nothing may differ. -/
def Likeness.same : Likeness where
  line t l := l = t.line
  node := Eq
  line_refl _ := rfl
  line_receiver h := h

theorem Likeness.exact_same : Likeness.same.Exact := ⟨id, Eq.symm⟩

instance : Likeness.same.Numbered := ⟨fun _ => rfl⟩

variable {L : Likeness}

/-- Tokens have no numbers. -/
theorem Token.Like.eq_of_line (hL : ∀ {t l}, L.line t l → l = t.line) {t t' : Token}
    (h : t.Like L t') : t' = t := by
  obtain ⟨kind, lexeme, line⟩ := t
  obtain ⟨kind', lexeme', line'⟩ := t'
  obtain ⟨hkind, hlexeme, hline⟩ := h
  cases hkind
  cases hlexeme
  cases hL hline
  rfl

theorem Token.Like.eq (hL : L.Exact) {t t' : Token} (h : t.Like L t') : t' = t :=
  h.eq_of_line hL.line

theorem Token.Like.eq_all (hL : L.Exact) : ∀ {ts ts' : List Token},
    List.Forall₂ (Token.Like L) ts ts' → ts' = ts
  | [], _, .nil => rfl
  | _ :: _, _, .cons h hr => by rw [h.eq hL, Token.Like.eq_all hL hr]

mutual

theorem Expr.Like.eq (hL : L.Exact) : ∀ {e e' : Expr}, e.Like L e' → e' = e
  | .literal _, _, .literal _ => rfl
  | .grouping _, _, .grouping h => by rw [h.eq hL]
  | .unary .., _, .unary hop h => by rw [hop.eq hL, h.eq hL]
  | .binary .., _, .binary hl hop hr => by rw [hl.eq hL, hop.eq hL, hr.eq hL]
  | .logical .., _, .logical hl hop hr => by rw [hl.eq hL, hop.eq hL, hr.eq hL]
  | .variable .., _, .variable hid hname => by rw [hL.node hid, hname.eq hL]
  | .assign .., _, .assign hid hname h => by rw [hL.node hid, hname.eq hL, h.eq hL]
  | .call .., _, .call hc hparen hargs => by
    rw [hc.eq hL, hparen.eq hL, Expr.Like.eq_all hL hargs]
  | .get .., _, .get ho hname => by rw [ho.eq hL, hname.eq hL]
  | .set .., _, .set ho hname h => by rw [ho.eq hL, hname.eq hL, h.eq hL]
  | .this .., _, .this hid hk => by rw [hL.node hid, hk.eq hL]

theorem Expr.Like.eq_all (hL : L.Exact) : ∀ {es es' : List Expr},
    List.Forall₂ (Expr.Like L) es es' → es' = es
  | [], _, .nil => rfl
  | _ :: _, _, .cons h hr => by rw [h.eq hL, Expr.Like.eq_all hL hr]

end

theorem Expr.Like.eq_option (hL : L.Exact) : ∀ {e e' : Option Expr},
    Option.Rel (Expr.Like L) e e' → e' = e
  | none, _, .none => rfl
  | some _, _, .some h => by rw [h.eq hL]

mutual

theorem Stmt.Like.eq (hL : L.Exact) : ∀ {s s' : Stmt}, s.Like L s' → s' = s
  | .expression _, _, .expression h => by rw [h.eq hL]
  | .print _, _, .print h => by rw [h.eq hL]
  | .var .., _, .var hname hinit => by rw [hname.eq hL, Expr.Like.eq_option hL hinit]
  | .block _, _, .block h => by rw [Stmt.Like.eq_all hL h]
  | .cond _ _ none, _, .cond ht h .none => by rw [ht.eq hL, h.eq hL]
  | .cond _ _ (some _), _, .cond ht h (.some he) => by rw [ht.eq hL, h.eq hL, he.eq hL]
  | .while .., _, .while ht h => by rw [ht.eq hL, h.eq hL]
  | .function _, _, .function h => by rw [h.eq hL]
  | .ret .., _, .ret hk h => by rw [hk.eq hL, Expr.Like.eq_option hL h]
  | .class .., _, .class hname h => by rw [hname.eq hL, FunctionDecl.Like.eq_all hL h]

theorem Stmt.Like.eq_all (hL : L.Exact) : ∀ {ss ss' : List Stmt},
    List.Forall₂ (Stmt.Like L) ss ss' → ss' = ss
  | [], _, .nil => rfl
  | _ :: _, _, .cons h hr => by rw [h.eq hL, Stmt.Like.eq_all hL hr]

theorem FunctionDecl.Like.eq (hL : L.Exact) : ∀ {d d' : FunctionDecl}, d.Like L d' → d' = d
  | .mk .., _, .mk hname hparams hbody => by
    rw [hname.eq hL, Token.Like.eq_all hL hparams, Stmt.Like.eq_all hL hbody]

theorem FunctionDecl.Like.eq_all (hL : L.Exact) : ∀ {ds ds' : List FunctionDecl},
    List.Forall₂ (FunctionDecl.Like L) ds ds' → ds' = ds
  | [], _, .nil => rfl
  | _ :: _, _, .cons h hr => by rw [h.eq hL, FunctionDecl.Like.eq_all hL hr]

end

end Lox
