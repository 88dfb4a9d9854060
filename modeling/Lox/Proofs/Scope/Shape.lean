/-
What resolving does to the open scopes. An expression, a function and a class
leave them as they found them, and a statement adds no more than the name that
it declares to the innermost one. This needs that no branch and no loop body is
a declaration, which the grammar sees to (`Proper`).

Errors only accumulate, so a walk that ends without one had none at any place.
-/
import Lox.Scope.Resolve
import Mathlib.Data.List.Forall2

namespace Lox

/-- The name that a statement declares in the scope it stands in. -/
def Stmt.declared? : Stmt → Option Token
  | .var name _ => some name
  | .function decl => some decl.name
  | .class name _ => some name
  | _ => none

mutual

/-- No branch and no loop body inside is a declaration, and nothing declares the receiver. -/
def Stmt.Proper : Stmt → Prop
  | .var name _ => name.lexeme ≠ receiverName
  | .block body => Stmt.AllProper body
  | .cond _ thenPart none => thenPart.declared? = none ∧ thenPart.Proper
  | .cond _ thenPart (some elsePart) =>
    (thenPart.declared? = none ∧ thenPart.Proper) ∧ elsePart.declared? = none ∧ elsePart.Proper
  | .while _ body => body.declared? = none ∧ body.Proper
  | .function decl => decl.name.lexeme ≠ receiverName ∧ decl.Proper
  | .class name methods => name.lexeme ≠ receiverName ∧ FunctionDecl.AllProper methods
  | .expression _ | .print _ | .ret _ _ => True

def Stmt.AllProper : List Stmt → Prop
  | [] => True
  | s :: rest => s.Proper ∧ Stmt.AllProper rest

def FunctionDecl.Proper : FunctionDecl → Prop
  | .mk _ params body => (∀ name ∈ params, name.lexeme ≠ receiverName) ∧ Stmt.AllProper body

def FunctionDecl.AllProper : List FunctionDecl → Prop
  | [] => True
  | d :: rest => d.Proper ∧ FunctionDecl.AllProper rest

end

/-! ## Scopes -/

/-- The scopes after a name was declared and defined in the innermost one. -/
def withDefined (name : Token) : List Scope → List Scope
  | [] => []
  | scope :: outer => scope.set name.lexeme .defined :: outer

/-- The scopes while a name of the innermost one is declared and not defined. -/
def withPending (name : Token) : List Scope → List Scope
  | [] => []
  | scope :: outer => scope.set name.lexeme .declared :: outer

/-- The scopes after a statement that declares this name, if it declares any. -/
def withDeclared (name? : Option Token) (scopes : List Scope) : List Scope :=
  match name? with
  | some name => withDefined name scopes
  | none => scopes

theorem withDeclared_nil (name? : Option Token) : withDeclared name? [] = [] := by
  cases name? <;> rfl

namespace Resolution

@[simp] theorem report_scopes (r : Resolution) (token : Token) (fault : ResolveFault) :
    (r.report token fault).scopes = r.scopes := rfl

@[simp] theorem push_scopes (r : Resolution) (scope : Scope) :
    (r.push scope).scopes = scope :: r.scopes := rfl

@[simp] theorem pop_scopes (r : Resolution) : r.pop.scopes = r.scopes.tail := rfl

@[simp] theorem record_scopes (r : Resolution) (id : NodeId) (name : Token) :
    (r.record id name).scopes = r.scopes := by
  unfold record
  split <;> rfl

theorem define_scopes (r : Resolution) (name : Token) :
    (r.define name).scopes = withDefined name r.scopes := by
  unfold define withDefined
  split <;> rename_i h <;> simp [h]

/-- Whether or not the name was new, it ends up defined in the innermost scope. -/
theorem withDefined_declare (r : Resolution) (name : Token) :
    withDefined name (r.declare name).scopes = withDefined name r.scopes := by
  unfold declare
  split
  next h => rfl
  next scope outer h =>
    split
    · rfl
    · rw [h]
      exact congrArg (· :: outer) (Bindings.set_set scope name.lexeme .declared .defined)

@[simp] theorem checkReturn_scopes (r : Resolution) (keyword : Token) (hasValue : Bool) :
    (r.checkReturn keyword hasValue).scopes = r.scopes := by
  simp only [checkReturn]
  split <;> split <;> rfl

theorem addParams_scopes (params : List Token) (r : Resolution) :
    (r.addParams params).scopes =
      params.foldl (fun scopes name => withDefined name scopes) r.scopes := by
  induction params generalizing r with
  | nil => rfl
  | cons name rest ih =>
    simp only [addParams, List.foldl_cons] at ih ⊢
    rw [ih, define_scopes, withDefined_declare]

end Resolution

mutual

/-- An expression leaves the scopes alone. -/
theorem Expr.resolve_scopes : ∀ (e : Expr) (r : Resolution), (e.resolve r).scopes = r.scopes
  | .literal _, _ => rfl
  | .grouping e, r => by rw [Expr.resolve, e.resolve_scopes]
  | .unary _ e, r => by rw [Expr.resolve, e.resolve_scopes]
  | .binary left _ right, r => by rw [Expr.resolve, right.resolve_scopes, left.resolve_scopes]
  | .logical left _ right, r => by rw [Expr.resolve, right.resolve_scopes, left.resolve_scopes]
  | .variable id name, r => by
    simp only [Expr.resolve, Resolution.record_scopes]
    split <;> rfl
  | .assign id name e, r => by rw [Expr.resolve, Resolution.record_scopes, e.resolve_scopes]
  | .call callee _ args, r => by rw [Expr.resolve, Expr.resolveAll_scopes, callee.resolve_scopes]
  | .get object _, r => by rw [Expr.resolve, object.resolve_scopes]
  | .set object _ e, r => by rw [Expr.resolve, object.resolve_scopes, e.resolve_scopes]
  | .this id keyword, r => by
    simp only [Expr.resolve]
    split
    · exact r.record_scopes id keyword
    · rfl

theorem Expr.resolveAll_scopes : ∀ (es : List Expr) (r : Resolution),
    (Expr.resolveAll es r).scopes = r.scopes
  | [], _ => rfl
  | e :: rest, r => by rw [Expr.resolveAll, Expr.resolveAll_scopes rest, e.resolve_scopes]

end

theorem tail_withDeclared (name? : Option Token) (scopes : List Scope) :
    (withDeclared name? scopes).tail = scopes.tail := by
  cases name? <;> cases scopes <;> rfl

/-- The scopes after statements: each adds the name that it declares. -/
def afterAll (ss : List Stmt) (scopes : List Scope) : List Scope :=
  ss.foldl (fun scopes s => withDeclared s.declared? scopes) scopes

theorem tail_afterAll (ss : List Stmt) (scopes : List Scope) :
    (afterAll ss scopes).tail = scopes.tail := by
  induction ss generalizing scopes with
  | nil => rfl
  | cons s rest ih =>
    simp only [afterAll, List.foldl_cons] at ih ⊢
    rw [ih, tail_withDeclared]

theorem tail_foldl_withDefined (params : List Token) (scopes : List Scope) :
    (params.foldl (fun scopes name => withDefined name scopes) scopes).tail = scopes.tail := by
  induction params generalizing scopes with
  | nil => rfl
  | cons name rest ih =>
    rw [List.foldl_cons, ih]
    exact tail_withDeclared (some name) scopes

mutual

/-- A statement adds the name that it declares to the innermost scope, and nothing else. -/
theorem Stmt.resolve_scopes : ∀ (s : Stmt) (r : Resolution), s.Proper →
    (s.resolve r).scopes = withDeclared s.declared? r.scopes
  | .expression e, r, _ => e.resolve_scopes r
  | .print e, r, _ => e.resolve_scopes r
  | .var name none, r, _ => by
    rw [Stmt.resolve, Resolution.define_scopes, Resolution.withDefined_declare]; rfl
  | .var name (some e), r, _ => by
    rw [Stmt.resolve, Resolution.define_scopes, e.resolve_scopes, Resolution.withDefined_declare]
    rfl
  | .block body, r, h => by
    rw [Stmt.Proper] at h
    rw [Stmt.resolve, Resolution.pop_scopes, Stmt.resolveAll_scopes body _ h, tail_afterAll]
    rfl
  | .cond test thenPart none, r, h => by
    rw [Stmt.Proper] at h
    rw [Stmt.resolve, thenPart.resolve_scopes _ h.2, h.1, test.resolve_scopes]; rfl
  | .cond test thenPart (some elsePart), r, h => by
    rw [Stmt.Proper] at h
    rw [Stmt.resolve, elsePart.resolve_scopes _ h.2.2, h.2.1, withDeclared,
      thenPart.resolve_scopes _ h.1.2, h.1.1, test.resolve_scopes]; rfl
  | .while test body, r, h => by
    rw [Stmt.Proper] at h
    rw [Stmt.resolve, body.resolve_scopes _ h.2, h.1, test.resolve_scopes]; rfl
  | .function decl, r, h => by
    rw [Stmt.Proper] at h
    rw [Stmt.resolve, decl.resolve_scopes _ _ h.2, Resolution.define_scopes,
      Resolution.withDefined_declare]; rfl
  | .ret keyword none, r, _ => r.checkReturn_scopes keyword false
  | .ret keyword (some e), r, _ => by
    rw [Stmt.resolve, e.resolve_scopes, Resolution.checkReturn_scopes]; rfl
  | .class name methods, r, h => by
    rw [Stmt.Proper] at h
    simp only [Stmt.resolve, Resolution.pop_scopes]
    rw [FunctionDecl.resolveMethods_scopes methods _ h.2, Resolution.push_scopes, List.tail_cons,
      Resolution.define_scopes, Resolution.withDefined_declare]
    rfl

theorem Stmt.resolveAll_scopes : ∀ (ss : List Stmt) (r : Resolution), Stmt.AllProper ss →
    (Stmt.resolveAll ss r).scopes = afterAll ss r.scopes
  | [], _, _ => rfl
  | s :: rest, r, h => by
    rw [Stmt.AllProper] at h
    rw [Stmt.resolveAll, Stmt.resolveAll_scopes rest _ h.2, s.resolve_scopes r h.1]
    rfl

theorem FunctionDecl.resolve_scopes : ∀ (d : FunctionDecl) (context : FunctionContext)
    (r : Resolution), d.Proper → (d.resolve context r).scopes = r.scopes
  | .mk _ params body, context, r, h => by
    rw [FunctionDecl.Proper] at h
    simp only [FunctionDecl.resolve, Resolution.pop_scopes]
    rw [Stmt.resolveAll_scopes body _ h.2, tail_afterAll, Resolution.addParams_scopes,
      tail_foldl_withDefined]
    rfl

theorem FunctionDecl.resolveMethods_scopes : ∀ (ds : List FunctionDecl) (r : Resolution),
    FunctionDecl.AllProper ds → (FunctionDecl.resolveMethods ds r).scopes = r.scopes
  | [], _, _ => rfl
  | d :: rest, r, h => by
    rw [FunctionDecl.AllProper] at h
    rw [FunctionDecl.resolveMethods, FunctionDecl.resolveMethods_scopes rest _ h.2,
      d.resolve_scopes _ _ h.1]

end

/-! ## Names stay -/

/-- Each scope of the second list has all names that its scope in the first one has. -/
def Grows : List Scope → List Scope → Prop :=
  List.Forall₂ fun before after => ∀ name, before.contains name = true → after.contains name = true

theorem Grows.refl (scopes : List Scope) : Grows scopes scopes :=
  List.forall₂_same.2 fun _ _ _ h => h

theorem Grows.trans {a b c : List Scope} (h : Grows a b) (h' : Grows b c) : Grows a c := by
  induction h generalizing c with
  | nil => exact h'
  | cons h _ ih =>
    cases h' with
    | cons h₁ h₂ => exact .cons (fun name hn => h₁ name (h name hn)) (ih h₂)

theorem grows_withDefined (name : Token) (scopes : List Scope) :
    Grows scopes (withDefined name scopes) := by
  cases scopes with
  | nil => exact .nil
  | cons scope outer =>
    refine .cons (fun other h => ?_) (Grows.refl outer)
    simp [h]

theorem grows_withDeclared (name? : Option Token) (scopes : List Scope) :
    Grows scopes (withDeclared name? scopes) := by
  cases name? with
  | none => exact Grows.refl scopes
  | some name => exact grows_withDefined name scopes

theorem grows_afterAll (ss : List Stmt) (scopes : List Scope) : Grows scopes (afterAll ss scopes) := by
  induction ss generalizing scopes with
  | nil => exact Grows.refl scopes
  | cons s rest ih => exact (grows_withDeclared _ _).trans (ih _)

/-! ## Errors -/

namespace Resolution

/-- No error was found so far. -/
def Clean (r : Resolution) : Prop := r.errors = #[]

/-- The flag is set exactly if an error was found. -/
def Flagged (r : Resolution) : Prop := r.failed = true ↔ ¬ r.Clean

/-- What a walk may leave behind: nothing reported is lost, and no report is without its flag. -/
structure Reaches (r r' : Resolution) : Prop where
  errors : r.errors.toList <+: r'.errors.toList
  flagged : r.Flagged → r'.Flagged

variable {r r' r'' : Resolution} {name : Token}

/-- Nothing was reported. -/
theorem Reaches.silent (he : r'.errors = r.errors) (hf : r'.failed = r.failed) : r.Reaches r' := by
  refine ⟨he ▸ List.prefix_rfl, fun h => ?_⟩
  rwa [Flagged, Clean, he, hf]

theorem Reaches.refl (r : Resolution) : r.Reaches r := .silent rfl rfl

theorem Reaches.trans (h : r.Reaches r') (h' : r'.Reaches r'') : r.Reaches r'' :=
  ⟨h.errors.trans h'.errors, h'.flagged ∘ h.flagged⟩

/-- Without an error in the end there was none before. -/
theorem Reaches.clean (h : r.Reaches r') (hc : r'.Clean) : r.Clean := by
  have herrors := h.errors
  rw [show r'.errors = #[] from hc] at herrors
  exact Array.toList_eq_nil_iff.1 (List.prefix_nil.1 herrors)

theorem not_clean_report (r : Resolution) (token : Token) (fault : ResolveFault) :
    ¬ (r.report token fault).Clean := by
  simp [Clean, report]

theorem reaches_report (r : Resolution) (token : Token) (fault : ResolveFault) :
    r.Reaches (r.report token fault) := by
  refine ⟨?_, fun _ => ⟨fun _ => r.not_clean_report token fault, fun _ => rfl⟩⟩
  rw [report, Array.toList_push]
  exact List.prefix_append _ _

theorem reaches_push (r : Resolution) (scope : Scope) : r.Reaches (r.push scope) :=
  .silent rfl rfl

theorem reaches_pop (r : Resolution) : r.Reaches r.pop := .silent rfl rfl

theorem reaches_record (r : Resolution) (id : NodeId) (name : Token) :
    r.Reaches (r.record id name) := by
  unfold record
  split
  · exact .silent rfl rfl
  · exact .refl r

theorem reaches_define (r : Resolution) (name : Token) : r.Reaches (r.define name) := by
  unfold define
  split
  · exact .refl r
  · exact .silent rfl rfl

theorem reaches_declare (r : Resolution) (name : Token) : r.Reaches (r.declare name) := by
  unfold declare
  split
  · exact .refl r
  · split
    · exact r.reaches_report _ _
    · exact .silent rfl rfl

theorem reaches_addParams (r : Resolution) (params : List Token) :
    r.Reaches (r.addParams params) := by
  induction params generalizing r with
  | nil => exact .refl r
  | cons name rest ih =>
    exact ((r.reaches_declare name).trans (reaches_define _ name)).trans (ih _)

theorem reaches_checkReturn (r : Resolution) (keyword : Token) (hasValue : Bool) :
    r.Reaches (r.checkReturn keyword hasValue) := by
  simp only [checkReturn]
  split <;> split
  · exact (r.reaches_report _ _).trans (reaches_report _ _ _)
  · exact r.reaches_report _ _
  · exact r.reaches_report _ _
  · exact .refl r

theorem Clean.of_define (h : (r.define name).Clean) : r.Clean := (r.reaches_define name).clean h

/-- Without an error the name was new in the innermost scope, and is pending now. -/
theorem Clean.declare_scopes (h : (r.declare name).Clean) :
    (r.declare name).scopes = withPending name r.scopes ∧
      ∀ scope outer, r.scopes = scope :: outer → scope.contains name.lexeme = false := by
  unfold declare at h ⊢
  split at h
  next hs => simp [hs, withPending]
  next scope outer hs =>
    split at h
    · exact absurd h (r.not_clean_report _ _)
    · rename_i hn
      simp only [hs, if_neg hn, withPending, List.cons.injEq, true_and]
      rintro _ _ ⟨rfl, rfl⟩
      simpa using hn

end Resolution

mutual

theorem Expr.resolve_reaches : ∀ (e : Expr) (r : Resolution), r.Reaches (e.resolve r)
  | .literal _, r => .refl r
  | .grouping e, r | .unary _ e, r | .get e _, r => e.resolve_reaches r
  | .binary left _ right, r | .logical left _ right, r =>
    (left.resolve_reaches r).trans (right.resolve_reaches _)
  | .variable id name, r => by
    rw [Expr.resolve]
    split
    · exact (r.reaches_report _ _).trans (Resolution.reaches_record _ id name)
    · exact r.reaches_record id name
  | .assign id name e, r => (e.resolve_reaches r).trans (Resolution.reaches_record _ id name)
  | .call callee _ args, r => (callee.resolve_reaches r).trans (Expr.resolveAll_reaches args _)
  | .set object _ e, r => (e.resolve_reaches r).trans (object.resolve_reaches _)
  | .this id keyword, r => by
    rw [Expr.resolve]
    split
    · exact r.reaches_record id keyword
    · exact r.reaches_report _ _

theorem Expr.resolveAll_reaches : ∀ (es : List Expr) (r : Resolution),
    r.Reaches (Expr.resolveAll es r)
  | [], r => .refl r
  | e :: rest, r => (e.resolve_reaches r).trans (Expr.resolveAll_reaches rest _)

end

mutual

/-- A walk takes no error back. -/
theorem Stmt.resolve_reaches : ∀ (s : Stmt) (r : Resolution), r.Reaches (s.resolve r)
  | .expression e, r | .print e, r => e.resolve_reaches r
  | .var name none, r => (r.reaches_declare name).trans (Resolution.reaches_define _ name)
  | .var name (some e), r =>
    ((r.reaches_declare name).trans (e.resolve_reaches _)).trans (Resolution.reaches_define _ name)
  | .block body, r =>
    ((r.reaches_push .empty).trans (Stmt.resolveAll_reaches body _)).trans
      (Resolution.reaches_pop _)
  | .cond test thenPart none, r => (test.resolve_reaches r).trans (thenPart.resolve_reaches _)
  | .cond test thenPart (some elsePart), r =>
    ((test.resolve_reaches r).trans (thenPart.resolve_reaches _)).trans
      (elsePart.resolve_reaches _)
  | .while test body, r => (test.resolve_reaches r).trans (body.resolve_reaches _)
  | .function decl, r =>
    ((r.reaches_declare decl.name).trans (Resolution.reaches_define _ decl.name)).trans
      (decl.resolve_reaches .function _)
  | .ret keyword none, r => r.reaches_checkReturn keyword false
  | .ret keyword (some e), r => (r.reaches_checkReturn keyword true).trans (e.resolve_reaches _)
  | .class name methods, r => by
    have hinside : r.Reaches { r with inClass := true } := .silent rfl rfl
    have hname := (hinside.trans (Resolution.reaches_declare _ name)).trans
      (Resolution.reaches_define _ name)
    have h := (hname.trans (Resolution.reaches_push _ classScope)).trans
      (FunctionDecl.resolveMethods_reaches methods _)
    exact (h.trans (Resolution.reaches_pop _)).trans (.silent rfl rfl)

theorem Stmt.resolveAll_reaches : ∀ (ss : List Stmt) (r : Resolution),
    r.Reaches (Stmt.resolveAll ss r)
  | [], r => .refl r
  | s :: rest, r => (s.resolve_reaches r).trans (Stmt.resolveAll_reaches rest _)

theorem FunctionDecl.resolve_reaches : ∀ (d : FunctionDecl) (context : FunctionContext)
    (r : Resolution), r.Reaches (d.resolve context r)
  | .mk _ params body, context, r => by
    have hinside : r.Reaches ({ r with function := context }.push .empty) := .silent rfl rfl
    have hbody := (hinside.trans (Resolution.reaches_addParams _ params)).trans
      (Stmt.resolveAll_reaches body _)
    exact (hbody.trans (Resolution.reaches_pop _)).trans (.silent rfl rfl)

theorem FunctionDecl.resolveMethods_reaches : ∀ (ds : List FunctionDecl) (r : Resolution),
    r.Reaches (FunctionDecl.resolveMethods ds r)
  | [], r => .refl r
  | d :: rest, r => (d.resolve_reaches _ r).trans (FunctionDecl.resolveMethods_reaches rest _)

end

/-- The resolver has failed exactly if it has reported an error. -/
theorem resolve_failed {program : List Stmt} {distances : Std.HashMap NodeId Nat} :
    (resolve program distances).failed = false ↔ (resolve program distances).Clean := by
  have hstart : (Resolution.start distances).Flagged := by
    simp [Resolution.Flagged, Resolution.Clean, Resolution.start]
  have h := (Stmt.resolveAll_reaches program (.start distances)).flagged hstart
  rw [← Bool.not_eq_true]
  exact (not_congr h).trans not_not

end Lox
