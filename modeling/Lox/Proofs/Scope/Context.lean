/-
The function around a place. What is resolved leaves the function and the class
around it as they were, so each visit knows in which kind of function its site
stands: all sites in the body of a function stand in this function, however deep
in its blocks, and only another function in it makes a difference
(`Site.function_part`). In an accepted program a `return` stands in a function,
and one with a value does not stand in an initializer.
-/
import Lox.Proofs.Scope.Visit

namespace Lox

/-! ## The context of a statement -/

namespace Resolution

/-- The function and the class around a place. -/
def context (r : Resolution) : FunctionContext × Bool := (r.function, r.inClass)

@[simp] theorem context_report (r : Resolution) (token : Token) (fault : ResolveFault) :
    (r.report token fault).context = r.context := rfl

@[simp] theorem context_push (r : Resolution) (scope : Scope) :
    (r.push scope).context = r.context := rfl

@[simp] theorem context_pop (r : Resolution) : r.pop.context = r.context := rfl

@[simp] theorem context_declare (r : Resolution) (name : Token) :
    (r.declare name).context = r.context := by
  unfold declare
  split
  · rfl
  · split <;> rfl

@[simp] theorem context_define (r : Resolution) (name : Token) :
    (r.define name).context = r.context := by
  unfold define
  split <;> rfl

@[simp] theorem context_record (r : Resolution) (id : NodeId) (name : Token) :
    (r.record id name).context = r.context := by
  unfold record
  split <;> rfl

@[simp] theorem context_checkReturn (r : Resolution) (keyword : Token) (hasValue : Bool) :
    (r.checkReturn keyword hasValue).context = r.context := by
  unfold checkReturn
  dsimp only
  split <;> split <;> rfl

@[simp] theorem context_addParams (r : Resolution) (params : List Token) :
    (r.addParams params).context = r.context := by
  induction params generalizing r with
  | nil => rfl
  | cons name rest ih =>
    rw [addParams, List.foldl_cons]
    exact (ih _).trans (by simp)

end Resolution

mutual

theorem Expr.resolve_context : ∀ (e : Expr) (r : Resolution), (e.resolve r).context = r.context
  | .literal _, _ => rfl
  | .grouping e, r | .unary _ e, r | .get e _, r => e.resolve_context r
  | .binary left _ right, r | .logical left _ right, r => by
    rw [Expr.resolve, right.resolve_context, left.resolve_context]
  | .variable id name, r => by
    rw [Expr.resolve, Resolution.context_record]
    split <;> rfl
  | .assign id name e, r => by rw [Expr.resolve, Resolution.context_record, e.resolve_context]
  | .call callee _ args, r => by
    rw [Expr.resolve, Expr.resolveAll_context args, callee.resolve_context]
  | .set object _ e, r => by rw [Expr.resolve, object.resolve_context, e.resolve_context]
  | .this id keyword, r => by
    rw [Expr.resolve]
    split <;> simp

theorem Expr.resolveAll_context : ∀ (es : List Expr) (r : Resolution),
    (Expr.resolveAll es r).context = r.context
  | [], _ => rfl
  | e :: rest, r => by rw [Expr.resolveAll, Expr.resolveAll_context rest, e.resolve_context]

end

mutual

/-- A statement may be in a function or a class, but not its successor because of it. -/
theorem Stmt.resolve_context : ∀ (s : Stmt) (r : Resolution), (s.resolve r).context = r.context
  | .expression e, r | .print e, r => e.resolve_context r
  | .var name none, r => by simp [Stmt.resolve]
  | .var name (some e), r => by simp [Stmt.resolve, e.resolve_context]
  | .block body, r => by simp [Stmt.resolve, Stmt.resolveAll_context body]
  | .cond test thenPart none, r => by
    rw [Stmt.resolve, thenPart.resolve_context, test.resolve_context]
  | .cond test thenPart (some elsePart), r => by
    rw [Stmt.resolve, elsePart.resolve_context, thenPart.resolve_context, test.resolve_context]
  | .while test body, r => by rw [Stmt.resolve, body.resolve_context, test.resolve_context]
  | .function decl, r => by simp [Stmt.resolve, decl.resolve_context]
  | .ret keyword none, r => by simp [Stmt.resolve]
  | .ret keyword (some e), r => by simp [Stmt.resolve, e.resolve_context]
  | .class name decls, r => by
    have h := congrArg Prod.fst (FunctionDecl.resolveMethods_context decls
      ((({ r with inClass := true }.declare name).define name).push classScope))
    simp only [Resolution.context_push, Resolution.context_define, Resolution.context_declare] at h
    exact Prod.ext h rfl

theorem Stmt.resolveAll_context : ∀ (ss : List Stmt) (r : Resolution),
    (Stmt.resolveAll ss r).context = r.context
  | [], _ => rfl
  | s :: rest, r => by rw [Stmt.resolveAll, Stmt.resolveAll_context rest, s.resolve_context]

theorem FunctionDecl.resolve_context : ∀ (d : FunctionDecl) (context : FunctionContext)
    (r : Resolution), (d.resolve context r).context = r.context
  | .mk _ params body, context, r => by
    have h := congrArg Prod.snd (Stmt.resolveAll_context body
      (({ r with function := context }.push .empty).addParams params))
    simp only [Resolution.context_addParams, Resolution.context_push] at h
    exact Prod.ext rfl h

theorem FunctionDecl.resolveMethods_context : ∀ (ds : List FunctionDecl) (r : Resolution),
    (FunctionDecl.resolveMethods ds r).context = r.context
  | [], _ => rfl
  | d :: rest, r => by
    rw [FunctionDecl.resolveMethods, FunctionDecl.resolveMethods_context rest, d.resolve_context]

end

/-! ## The function around a site -/

namespace Resolution

variable (r : Resolution)

@[simp] theorem function_declare (name : Token) : (r.declare name).function = r.function :=
  congrArg Prod.fst (r.context_declare name)

@[simp] theorem function_define (name : Token) : (r.define name).function = r.function :=
  congrArg Prod.fst (r.context_define name)

@[simp] theorem function_checkReturn (keyword : Token) (hasValue : Bool) :
    (r.checkReturn keyword hasValue).function = r.function :=
  congrArg Prod.fst (r.context_checkReturn keyword hasValue)

@[simp] theorem function_insideFunction (context : FunctionContext) (params : List Token) :
    (r.insideFunction context params).function = context :=
  congrArg Prod.fst (context_addParams _ params)

@[simp] theorem function_insideClass (name : Token) :
    (r.insideClass name).function = r.function :=
  (function_define _ name).trans (function_declare _ name)

/-- A `return` may stand in a function only, and in an initializer only without a value. -/
theorem checkReturn_clean {keyword : Token} {hasValue : Bool}
    (h : (r.checkReturn keyword hasValue).Clean) :
    r.function ≠ .none ∧ (hasValue = true → r.function ≠ .initializer) := by
  refine ⟨fun hn => ?_, fun hv hi => ?_⟩
  · have hr : r.checkReturn keyword hasValue = r.report keyword .returnAtTopLevel := by
      simp [checkReturn, report, hn]
    exact r.not_clean_report _ _ (hr ▸ h)
  · have hr : r.checkReturn keyword hasValue = r.report keyword .valueFromInitializer := by
      simp [checkReturn, hv, hi]
    exact r.not_clean_report _ _ (hr ▸ h)

end Resolution

namespace Site

theorem resolve_context (site : Site) (r : Resolution) : (site.resolve r).context = r.context := by
  cases site with
  | expr e => exact e.resolve_context r
  | exprs es => exact Expr.resolveAll_context es r
  | stmt s => exact s.resolve_context r
  | stmts ss => exact Stmt.resolveAll_context ss r
  | function decl context => exact decl.resolve_context context r
  | methods decls => exact FunctionDecl.resolveMethods_context decls r

@[simp] theorem function_after (v : Visit) (site : Site) :
    (v.after site).resolution.function = v.resolution.function :=
  congrArg Prod.fst (site.resolve_context v.resolution)

/-- The sort of function that the sites directly inside a site stand in. -/
def inside : Site → Visit → FunctionContext
  | function _ context, _ => context
  | _, v => v.resolution.function

/-- Only a function makes a difference to the sites inside it. -/
theorem function_part {site part : Site} {v w : Visit} (h : (part, w) ∈ site.parts v) :
    w.resolution.function = site.inside v := by
  have hall : ∀ p ∈ site.parts v, p.2.resolution.function = site.inside v := by
    cases site with
    | expr e => cases e <;> simp [parts, inside]
    | exprs es => cases es <;> simp [parts, inside]
    | stmt s =>
      cases s with
      | var name init => cases init <;> simp [parts, inside]
      | cond test thenPart elsePart => cases elsePart <;> simp [parts, inside]
      | ret keyword value => cases value <;> simp [parts, inside]
      | block | «class» => simp [parts, inside, Visit.opening, Resolution.push]
      | _ => simp [parts, inside]
    | stmts ss => cases ss <;> simp [parts, inside]
    | function decl context =>
      cases decl
      simp [parts, inside, Visit.opening]
    | methods decls => cases decls <;> simp [parts, inside]
  exact hall _ h

end Site

end Lox
