/-
The walk of the resolver, site by site. A site is a piece of a program that the
resolver walks over as one; `parts` gives the sites inside it, each with the
state in which the resolver comes to it. A visit also knows what each open scope
will hold when it is closed, which is how the names that a scope never declares
are told apart from those that it has not declared yet.

In a program that was accepted every visit is `Fine`: no error before its end,
and no scope open at it that closes without a name it has.
-/
import Lox.Proofs.Scope.Shape
import Lox.Tree.References

namespace Lox

/-- What the resolver walks over as one. -/
inductive Site
  | expr (e : Expr)
  | exprs (es : List Expr)
  | stmt (s : Stmt)
  | stmts (ss : List Stmt)
  | function (decl : FunctionDecl) (context : FunctionContext)
  | methods (decls : List FunctionDecl)

namespace Site

/-- The walk over a site. -/
def resolve : Site → Resolution → Resolution
  | expr e => e.resolve
  | exprs es => Expr.resolveAll es
  | stmt s => s.resolve
  | stmts ss => Stmt.resolveAll ss
  | function decl context => decl.resolve context
  | methods decls => FunctionDecl.resolveMethods decls

/-- The references inside a site. -/
def references : Site → List Reference
  | expr e => e.references
  | exprs es => Expr.allReferences es
  | stmt s => s.references
  | stmts ss => Stmt.allReferences ss
  | function decl _ => decl.references
  | methods decls => FunctionDecl.allReferences decls

/-- The numbers of the references inside a site. -/
def ids (site : Site) : List NodeId := site.references.map Reference.id

/-- No branch and no loop body inside is a declaration, and nothing declares the receiver. -/
def Proper : Site → Prop
  | expr _ | exprs _ => True
  | stmt s => s.Proper
  | stmts ss => Stmt.AllProper ss
  | function decl _ => decl.Proper
  | methods decls => FunctionDecl.AllProper decls

end Site

/-- The resolver at a site. -/
structure Visit where
  resolution : Resolution
  /-- What the open scopes hold when they are closed, innermost first. -/
  closing : List Scope

namespace Resolution

/-- In a function, behind its parameters. -/
def insideFunction (r : Resolution) (context : FunctionContext) (params : List Token) :
    Resolution :=
  ({ r with function := context }.push .empty).addParams params

/-- In a class, before its methods. -/
def insideClass (r : Resolution) (name : Token) : Resolution :=
  (({ r with inClass := true }.declare name).define name).push classScope

end Resolution

namespace Visit

/-- The scopes that are open, innermost first. -/
def scopes (v : Visit) : List Scope := v.resolution.scopes

/-- The resolver behind a site. -/
def after (v : Visit) (site : Site) : Visit := { v with resolution := site.resolve v.resolution }

/-- The resolver at a site that makes up the rest of a scope just opened. -/
def opening (v : Visit) (inside : Resolution) (site : Site) : Visit :=
  ⟨inside, (site.resolve inside).scopes.headD .empty :: v.closing⟩

end Visit

/-- The sites directly inside a site, with their visits. -/
def Site.parts : Site → Visit → List (Site × Visit)
  | .expr (.grouping e), v => [(.expr e, v)]
  | .expr (.unary _ e), v => [(.expr e, v)]
  | .expr (.binary left _ right), v => [(.expr left, v), (.expr right, v.after (.expr left))]
  | .expr (.logical left _ right), v => [(.expr left, v), (.expr right, v.after (.expr left))]
  | .expr (.assign _ _ e), v => [(.expr e, v)]
  | .expr (.call callee _ args), v => [(.expr callee, v), (.exprs args, v.after (.expr callee))]
  | .expr (.get object _), v => [(.expr object, v)]
  | .expr (.set object _ e), v => [(.expr e, v), (.expr object, v.after (.expr e))]
  | .expr (.literal _), _ | .expr (.variable ..), _ | .expr (.this ..), _ => []
  | .exprs [], _ => []
  | .exprs (e :: rest), v => [(.expr e, v), (.exprs rest, v.after (.expr e))]
  | .stmt (.expression e), v => [(.expr e, v)]
  | .stmt (.print e), v => [(.expr e, v)]
  | .stmt (.var _ none), _ => []
  | .stmt (.var name (some e)), v => [(.expr e, { v with resolution := v.resolution.declare name })]
  | .stmt (.block body), v => [(.stmts body, v.opening (v.resolution.push .empty) (.stmts body))]
  | .stmt (.cond test thenPart none), v =>
    [(.expr test, v), (.stmt thenPart, v.after (.expr test))]
  | .stmt (.cond test thenPart (some elsePart)), v =>
    [(.expr test, v), (.stmt thenPart, v.after (.expr test)),
     (.stmt elsePart, (v.after (.expr test)).after (.stmt thenPart))]
  | .stmt (.while test body), v => [(.expr test, v), (.stmt body, v.after (.expr test))]
  | .stmt (.function decl), v =>
    [(.function decl .function,
      { v with resolution := (v.resolution.declare decl.name).define decl.name })]
  | .stmt (.ret _ none), _ => []
  | .stmt (.ret keyword (some e)), v =>
    [(.expr e, { v with resolution := v.resolution.checkReturn keyword true })]
  | .stmt (.class name decls), v =>
    [(.methods decls, v.opening (v.resolution.insideClass name) (.methods decls))]
  | .stmts [], _ => []
  | .stmts (s :: rest), v => [(.stmt s, v), (.stmts rest, v.after (.stmt s))]
  | .function (.mk _ params body) context, v =>
    [(.stmts body, v.opening (v.resolution.insideFunction context params) (.stmts body))]
  | .methods [], _ => []
  | .methods (decl :: rest), v =>
    let context : FunctionContext := if decl.isInit then .initializer else .method
    [(.function decl context, v), (.methods rest, v.after (.function decl context))]

/-- The walk over the statements of a program comes to this site in this state. -/
inductive Visited (program : List Stmt) (distances : Std.HashMap NodeId Nat) : Site → Visit → Prop
  | program : Visited program distances (.stmts program) ⟨.start distances, []⟩
  | part {site v part w} : Visited program distances site v → (part, w) ∈ site.parts v →
    Visited program distances part w

/-! ## Accepted programs -/

/-- What every visit of an accepted program is like. -/
structure Site.Fine (site : Site) (v : Visit) : Prop where
  proper : site.Proper
  /-- No error up to the end of the site. -/
  clean : (site.resolve v.resolution).Clean
  /-- What the scopes have at the end of the site they have when they are closed. -/
  covered : Grows (site.resolve v.resolution).scopes v.closing

theorem afterAll_cons (ss : List Stmt) (scope : Scope) (outer : List Scope) :
    ∃ scope', afterAll ss (scope :: outer) = scope' :: outer := by
  induction ss generalizing scope with
  | nil => exact ⟨scope, rfl⟩
  | cons s rest ih =>
    simp only [afterAll, List.foldl_cons] at ih ⊢
    cases s.declared? with
    | none => exact ih scope
    | some name => exact ih _

theorem foldl_withDefined_cons (params : List Token) (scope : Scope) (outer : List Scope) :
    ∃ scope', params.foldl (fun scopes name => withDefined name scopes) (scope :: outer) =
      scope' :: outer := by
  induction params generalizing scope with
  | nil => exact ⟨scope, rfl⟩
  | cons name rest ih => exact ih _

/-- A scope that was filled and is about to be closed holds what it holds then. -/
theorem grows_opening {v : Visit} {inside : Resolution} {site : Site} {scope : Scope}
    {outer : List Scope} (h : (site.resolve inside).scopes = scope :: outer)
    (hg : Grows outer v.closing) :
    Grows (site.resolve (v.opening inside site).resolution).scopes (v.opening inside site).closing := by
  simp only [Visit.opening, h, List.headD_cons]
  exact .cons (fun _ hn => hn) hg

theorem insideFunction_scopes (r : Resolution) (context : FunctionContext) (params : List Token) :
    (r.insideFunction context params).scopes =
      params.foldl (fun scopes name => withDefined name scopes) (.empty :: r.scopes) :=
  Resolution.addParams_scopes params _

theorem insideClass_scopes (r : Resolution) (name : Token) :
    (r.insideClass name).scopes = classScope :: withDefined name r.scopes := by
  rw [Resolution.insideClass, Resolution.push_scopes, Resolution.define_scopes,
    Resolution.withDefined_declare]

namespace Site.Fine

/-- An expression leaves the scopes alone, so that its parts see what it sees. -/
theorem of_expr {e : Expr} {v : Visit} (hc : (e.resolve v.resolution).Clean)
    (hg : Grows v.scopes v.closing) : (Site.expr e).Fine v :=
  ⟨trivial, hc, by rw [Site.resolve, e.resolve_scopes]; exact hg⟩

theorem of_exprs {es : List Expr} {v : Visit} (hc : (Expr.resolveAll es v.resolution).Clean)
    (hg : Grows v.scopes v.closing) : (Site.exprs es).Fine v :=
  ⟨trivial, hc, by rw [Site.resolve, Expr.resolveAll_scopes]; exact hg⟩

theorem before_expr {e : Expr} {v : Visit} (h : (Site.expr e).Fine v) :
    Grows v.scopes v.closing := by
  have := h.covered
  rwa [Site.resolve, e.resolve_scopes] at this

theorem before_stmt {s : Stmt} {v : Visit} (h : (Site.stmt s).Fine v) :
    Grows v.scopes v.closing := by
  have := h.covered
  rw [Site.resolve, s.resolve_scopes _ h.proper] at this
  exact (grows_withDeclared _ _).trans this

theorem before_stmts {ss : List Stmt} {v : Visit} (h : (Site.stmts ss).Fine v) :
    Grows v.scopes v.closing := by
  have := h.covered
  rw [Site.resolve, Stmt.resolveAll_scopes ss _ h.proper] at this
  exact (grows_afterAll ss _).trans this

/-- The parts of an expression. -/
theorem expr_part {e : Expr} {v : Visit} (h : (Site.expr e).Fine v) {part : Site} {w : Visit}
    (hp : (part, w) ∈ (Site.expr e).parts v) : part.Fine w := by
  have hg := h.before_expr
  have hc := h.clean
  have after : ∀ e' : Expr, Grows (v.after (.expr e')).scopes v.closing := fun e' => by
    simp only [Visit.scopes, Visit.after, Site.resolve, e'.resolve_scopes]; exact hg
  cases e with
  | literal | «variable» | this => simp [Site.parts] at hp
  | grouping e | unary _ e | get e _ =>
    simp only [Site.parts, List.mem_singleton, Prod.mk.injEq] at hp
    obtain ⟨rfl, rfl⟩ := hp
    exact of_expr hc hg
  | assign id name e =>
    simp only [Site.parts, List.mem_singleton, Prod.mk.injEq] at hp
    obtain ⟨rfl, rfl⟩ := hp
    exact of_expr ((Resolution.reaches_record _ _ _).clean hc) hg
  | binary left _ right | logical left _ right =>
    simp only [Site.parts, List.mem_cons, List.not_mem_nil, or_false, Prod.mk.injEq] at hp
    rcases hp with ⟨rfl, rfl⟩ | ⟨rfl, rfl⟩
    · exact of_expr ((right.resolve_reaches _).clean hc) hg
    · exact of_expr hc (after left)
  | call callee _ args =>
    simp only [Site.parts, List.mem_cons, List.not_mem_nil, or_false, Prod.mk.injEq] at hp
    rcases hp with ⟨rfl, rfl⟩ | ⟨rfl, rfl⟩
    · exact of_expr ((Expr.resolveAll_reaches args _).clean hc) hg
    · exact of_exprs hc (after callee)
  | set object _ e =>
    simp only [Site.parts, List.mem_cons, List.not_mem_nil, or_false, Prod.mk.injEq] at hp
    rcases hp with ⟨rfl, rfl⟩ | ⟨rfl, rfl⟩
    · exact of_expr ((object.resolve_reaches _).clean hc) hg
    · exact of_expr hc (after e)

/-- The parts of a statement. -/
theorem stmt_part {s : Stmt} {v : Visit} (h : (Site.stmt s).Fine v) {part : Site} {w : Visit}
    (hp : (part, w) ∈ (Site.stmt s).parts v) : part.Fine w := by
  have hg := h.before_stmt
  have hc := h.clean
  have hs := h.proper
  have hv := h.covered
  have afterExpr : ∀ e : Expr, (v.after (.expr e)).scopes = v.scopes := fun e => e.resolve_scopes _
  cases s with
  | expression e | print e =>
    simp only [Site.parts, List.mem_singleton, Prod.mk.injEq] at hp
    obtain ⟨rfl, rfl⟩ := hp
    exact of_expr hc hg
  | var name init =>
    cases init with
    | none => simp [Site.parts] at hp
    | some e =>
      simp only [Site.parts, List.mem_singleton, Prod.mk.injEq] at hp
      obtain ⟨rfl, rfl⟩ := hp
      have hc : (e.resolve (v.resolution.declare name)).Clean := Resolution.Clean.of_define hc
      refine of_expr hc ?_
      simp only [Site.resolve, Stmt.resolve, Resolution.define_scopes, e.resolve_scopes] at hv
      exact (grows_withDefined _ _).trans hv
  | block body =>
    simp only [Site.parts, List.mem_singleton, Prod.mk.injEq] at hp
    obtain ⟨rfl, rfl⟩ := hp
    rw [Site.Proper, Stmt.Proper] at hs
    obtain ⟨scope, hscope⟩ := afterAll_cons body .empty v.scopes
    refine ⟨hs, hc, @grows_opening _ _ _ scope v.scopes ?_ hg⟩
    exact (Stmt.resolveAll_scopes body _ hs).trans hscope
  | cond test thenPart elsePart =>
    cases elsePart with
    | none =>
      rw [Site.Proper, Stmt.Proper] at hs
      simp only [Site.parts, List.mem_cons, List.not_mem_nil, or_false, Prod.mk.injEq] at hp
      rcases hp with ⟨rfl, rfl⟩ | ⟨rfl, rfl⟩
      · exact of_expr ((thenPart.resolve_reaches _).clean hc) hg
      · exact ⟨hs.2, hc, hv⟩
    | some elsePart =>
      rw [Site.Proper, Stmt.Proper] at hs
      simp only [Site.parts, List.mem_cons, List.not_mem_nil, or_false, Prod.mk.injEq] at hp
      have hc' := (elsePart.resolve_reaches _).clean hc
      rcases hp with ⟨rfl, rfl⟩ | ⟨rfl, rfl⟩ | ⟨rfl, rfl⟩
      · exact of_expr ((thenPart.resolve_reaches _).clean hc') hg
      · refine ⟨hs.1.2, hc', ?_⟩
        rw [Site.resolve, thenPart.resolve_scopes _ hs.1.2, hs.1.1]
        rw [← afterExpr test] at hg
        exact hg
      · exact ⟨hs.2.2, hc, hv⟩
  | «while» test body =>
    rw [Site.Proper, Stmt.Proper] at hs
    simp only [Site.parts, List.mem_cons, List.not_mem_nil, or_false, Prod.mk.injEq] at hp
    rcases hp with ⟨rfl, rfl⟩ | ⟨rfl, rfl⟩
    · exact of_expr ((body.resolve_reaches _).clean hc) hg
    · exact ⟨hs.2, hc, hv⟩
  | function decl =>
    rw [Site.Proper, Stmt.Proper] at hs
    simp only [Site.parts, List.mem_singleton, Prod.mk.injEq] at hp
    obtain ⟨rfl, rfl⟩ := hp
    exact ⟨hs.2, hc, hv⟩
  | ret keyword value =>
    cases value with
    | none => simp [Site.parts] at hp
    | some e =>
      simp only [Site.parts, List.mem_singleton, Prod.mk.injEq] at hp
      obtain ⟨rfl, rfl⟩ := hp
      refine of_expr hc ?_
      simp only [Visit.scopes, Resolution.checkReturn_scopes]
      exact hg
  | «class» name decls =>
    rw [Site.Proper, Stmt.Proper] at hs
    simp only [Site.parts, List.mem_singleton, Prod.mk.injEq] at hp
    obtain ⟨rfl, rfl⟩ := hp
    rw [Site.resolve, Stmt.resolve_scopes _ _ (by rwa [Stmt.Proper])] at hv
    refine ⟨hs.2, hc, @grows_opening _ _ _ classScope (withDefined name v.scopes) ?_ hv⟩
    exact (FunctionDecl.resolveMethods_scopes decls _ hs.2).trans (insideClass_scopes _ name)

/-- A part of a site is as fine as the site. -/
theorem part {site : Site} {v : Visit} (h : site.Fine v) {part : Site} {w : Visit}
    (hp : (part, w) ∈ site.parts v) : part.Fine w := by
  have hc := h.clean
  have hv := h.covered
  match site, h with
  | .expr e, h => exact h.expr_part hp
  | .stmt s, h => exact h.stmt_part hp
  | .exprs [], _ | .stmts [], _ | .methods [], _ => simp [Site.parts] at hp
  | .exprs (e :: rest), _ =>
    simp only [Site.resolve, Expr.resolveAll, Expr.resolveAll_scopes, e.resolve_scopes] at hv
    simp only [Site.parts, List.mem_cons, List.not_mem_nil, or_false, Prod.mk.injEq] at hp
    rcases hp with ⟨rfl, rfl⟩ | ⟨rfl, rfl⟩
    · exact of_expr ((Expr.resolveAll_reaches rest _).clean hc) hv
    · refine of_exprs hc ?_
      rwa [Visit.scopes, Visit.after, Site.resolve, e.resolve_scopes]
  | .stmts (s :: rest), h =>
    have hs := h.proper
    rw [Site.Proper, Stmt.AllProper] at hs
    simp only [Site.parts, List.mem_cons, List.not_mem_nil, or_false, Prod.mk.injEq] at hp
    rcases hp with ⟨rfl, rfl⟩ | ⟨rfl, rfl⟩
    · refine ⟨hs.1, (Stmt.resolveAll_reaches rest _).clean hc, ?_⟩
      rw [Site.resolve, Stmt.resolveAll, Stmt.resolveAll_scopes rest _ hs.2] at hv
      exact (grows_afterAll rest _).trans hv
    · exact ⟨hs.2, hc, hv⟩
  | .function (.mk _ params body) context, h =>
    have hs := h.proper
    rw [Site.Proper, FunctionDecl.Proper] at hs
    simp only [Site.parts, List.mem_singleton, Prod.mk.injEq] at hp
    obtain ⟨rfl, rfl⟩ := hp
    rw [Site.resolve, FunctionDecl.resolve_scopes _ _ _ (by rwa [FunctionDecl.Proper])] at hv
    obtain ⟨inner, hinner⟩ := foldl_withDefined_cons params .empty v.scopes
    obtain ⟨scope, hscope⟩ := afterAll_cons body inner v.scopes
    refine ⟨hs.2, hc, @grows_opening _ _ _ scope v.scopes ?_ hv⟩
    rw [Site.resolve, Stmt.resolveAll_scopes body _ hs.2, insideFunction_scopes]
    exact (congrArg (afterAll body) hinner).trans hscope
  | .methods (decl :: rest), h =>
    have hs := h.proper
    rw [Site.Proper, FunctionDecl.AllProper] at hs
    simp only [Site.parts, List.mem_cons, List.not_mem_nil, or_false, Prod.mk.injEq] at hp
    rcases hp with ⟨rfl, rfl⟩ | ⟨rfl, rfl⟩
    · refine ⟨hs.1, (FunctionDecl.resolveMethods_reaches rest _).clean hc, ?_⟩
      rw [Site.resolve, FunctionDecl.resolveMethods, FunctionDecl.resolveMethods_scopes rest _ hs.2]
        at hv
      exact hv
    · exact ⟨hs.2, hc, hv⟩

end Site.Fine

/-- Every visit of an accepted program is fine. -/
theorem Visited.fine {program : List Stmt} {distances : Std.HashMap NodeId Nat}
    (hp : Stmt.AllProper program) (hc : (resolve program distances).Clean) {site : Site} {v : Visit}
    (h : Visited program distances site v) : site.Fine v := by
  induction h with
  | program =>
    refine ⟨hp, hc, ?_⟩
    rw [Site.resolve, Stmt.resolveAll_scopes program _ hp, Resolution.start]
    have : afterAll program [] = [] := by
      clear hp hc
      induction program with
      | nil => rfl
      | cons s rest ih =>
        simp only [afterAll, List.foldl_cons] at ih ⊢
        cases s.declared? <;> exact ih
    rw [this]
    exact .nil
  | part _ hp ih => exact ih.part hp

end Lox
