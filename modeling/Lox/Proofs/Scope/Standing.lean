/-
How far the declarations of the names in scope have come at a visit of an
accepted program. Only the innermost scope can have a name whose declaration is
not complete, and that only while its initializer is visited; the receiver is
never such a name, and no scope gets it after it was opened (`Settled`).
-/
import Lox.Proofs.Scope.Visit

namespace Lox

/-- Every name of the scope is defined. -/
def Complete (scope : Scope) : Prop := ∀ name a, scope.get? name = some a → a = .defined

/-- If the scope has the name when it is closed, it has it already, defined. -/
def Settled (name : String) (scope closing : Scope) : Prop :=
  closing.contains name = true → scope.get? name = some .defined

/-- The scopes in which a site may meet names whose declaration is not complete are left out. -/
def Site.settled : Site → List Scope → List Scope
  | .expr _, scopes | .exprs _, scopes => scopes.tail
  | _, scopes => scopes

structure Site.Steady (site : Site) (v : Visit) : Prop where
  complete : ∀ scope ∈ site.settled v.scopes, Complete scope
  receiver : List.Forall₂ (Settled receiverName) v.scopes v.closing

theorem complete_empty : Complete .empty := fun _ _ h => by simp at h

theorem Complete.set {scope : Scope} (h : Complete scope) (name : String) :
    Complete (scope.set name .defined) := by
  intro other a ha
  rw [Bindings.get?_set] at ha
  split at ha
  · simpa using ha.symm
  · exact h other a ha

/-- A name that a scope gets no later is settled. -/
theorem Complete.settled {scope closing : Scope} (h : Complete scope) {name : String}
    (hn : closing.get? name = scope.get? name) : Settled name scope closing := by
  intro hc
  obtain ⟨standing, hs⟩ := Bindings.contains_iff.1 hc
  rw [hn] at hs
  rw [hs, h name standing hs]

theorem complete_withDefined {scopes : List Scope} (h : ∀ scope ∈ scopes, Complete scope)
    (name : Token) : ∀ scope ∈ withDefined name scopes, Complete scope := by
  cases scopes with
  | nil => exact h
  | cons scope outer =>
    rw [List.forall_mem_cons] at h
    exact List.forall_mem_cons.2 ⟨h.1.set _, h.2⟩

theorem complete_withDeclared {scopes : List Scope} (h : ∀ scope ∈ scopes, Complete scope)
    (name? : Option Token) : ∀ scope ∈ withDeclared name? scopes, Complete scope := by
  cases name? with
  | none => exact h
  | some name => exact complete_withDefined h name

/-- Parameters are all defined at once. -/
theorem complete_of_params {params : List Token} {scope inner : Scope} {outer : List Scope}
    (hs : Complete scope)
    (h : params.foldl (fun scopes name => withDefined name scopes) (scope :: outer) =
      inner :: outer) : Complete inner := by
  induction params generalizing scope with
  | nil =>
    simp only [List.foldl_nil, List.cons.injEq, and_true] at h
    rwa [← h]
  | cons name rest ih => exact ih (hs.set _) h

theorem settled_withDefined {n : String} {scopes closing : List Scope}
    (h : List.Forall₂ (Settled n) scopes closing) (name : Token) :
    List.Forall₂ (Settled n) (withDefined name scopes) closing := by
  cases h with
  | nil => exact .nil
  | cons h₁ h₂ =>
    refine .cons (fun hc => ?_) h₂
    rw [Bindings.get?_set]
    split
    · rfl
    · exact h₁ hc

theorem settled_withDeclared {n : String} {scopes closing : List Scope}
    (h : List.Forall₂ (Settled n) scopes closing) (name? : Option Token) :
    List.Forall₂ (Settled n) (withDeclared name? scopes) closing := by
  cases name? with
  | none => exact h
  | some name => exact settled_withDefined h name

theorem complete_tail_withPending {scopes : List Scope} (h : ∀ scope ∈ scopes, Complete scope)
    (name : Token) : ∀ scope ∈ (withPending name scopes).tail, Complete scope := by
  cases scopes with
  | nil => exact h
  | cons scope outer => exact (List.forall_mem_cons.1 h).2

theorem settled_withPending {n : String} {scopes closing : List Scope}
    (h : List.Forall₂ (Settled n) scopes closing) {name : Token} (hn : name.lexeme ≠ n) :
    List.Forall₂ (Settled n) (withPending name scopes) closing := by
  cases h with
  | nil => exact .nil
  | cons h₁ h₂ =>
    refine .cons (fun hc => ?_) h₂
    rw [Bindings.get?_set, if_neg hn.symm]
    exact h₁ hc

/-! ## New scopes -/

theorem Stmt.Proper.declared_ne {s : Stmt} (h : s.Proper) {name : Token}
    (hs : s.declared? = some name) : name.lexeme ≠ receiverName := by
  cases s <;> simp only [Stmt.declared?, Option.some.injEq, reduceCtorEq] at hs <;> subst hs <;>
    rw [Stmt.Proper] at h
  · exact h
  · exact h.1
  · exact h.1

theorem Stmt.AllProper.declared_ne {ss : List Stmt} (h : Stmt.AllProper ss) :
    ∀ s ∈ ss, ∀ name, s.declared? = some name → name.lexeme ≠ receiverName := by
  induction ss with
  | nil => exact fun s hs => by cases hs
  | cons s rest ih =>
    exact List.forall_mem_cons.2 ⟨fun _ => h.1.declared_ne, ih h.2⟩

/-- Statements do not touch a name that none of them declares. -/
theorem get?_afterAll {n : String} {ss : List Stmt}
    (h : ∀ s ∈ ss, ∀ name, s.declared? = some name → name.lexeme ≠ n) {scope scope' : Scope}
    {outer : List Scope} (hs : afterAll ss (scope :: outer) = scope' :: outer) :
    scope'.get? n = scope.get? n := by
  induction ss generalizing scope with
  | nil =>
    simp only [afterAll, List.foldl_nil, List.cons.injEq, and_true] at hs
    rw [hs]
  | cons s rest ih =>
    rw [List.forall_mem_cons] at h
    simp only [afterAll, List.foldl_cons] at hs ih
    cases hd : s.declared? with
    | none => rw [hd] at hs; exact ih h.2 hs
    | some name =>
      rw [hd] at hs
      rw [ih h.2 hs, Bindings.get?_set, if_neg (h.1 name hd).symm]

namespace Site.Steady

/-- A scope just opened, in which all names are defined, and to which no later one is added that is
the receiver. -/
theorem opening {v : Visit} {inside : Resolution} {site : Site} {scope closed : Scope}
    {outer : List Scope} (hi : inside.scopes = scope :: outer)
    (hc : (site.resolve inside).scopes = closed :: outer)
    (hs : site.settled (scope :: outer) = scope :: outer) (h : ∀ s ∈ scope :: outer, Complete s)
    (hr : closed.get? receiverName = scope.get? receiverName)
    (ho : List.Forall₂ (Settled receiverName) outer v.closing) :
    site.Steady (v.opening inside site) := by
  refine ⟨?_, ?_⟩
  · simp only [Visit.scopes, Visit.opening, hi, hs]
    exact h
  · simp only [Visit.scopes, Visit.opening, hi, hc, List.headD_cons]
    exact .cons ((h scope (List.mem_cons_self ..)).settled hr) ho

theorem tail {scopes : List Scope} (h : ∀ scope ∈ scopes, Complete scope) :
    ∀ scope ∈ scopes.tail, Complete scope := fun scope hs => h scope (List.mem_of_mem_tail hs)

theorem expr_part {e : Expr} {v : Visit} (h : (Site.expr e).Steady v) {part : Site} {w : Visit}
    (hp : (part, w) ∈ (Site.expr e).parts v) : part.Steady w := by
  have hc : ∀ scope ∈ v.scopes.tail, Complete scope := h.complete
  have after : ∀ e' : Expr, (v.after (.expr e')).scopes = v.scopes := fun e' => e'.resolve_scopes _
  cases e with
  | literal | «variable» | this => simp [Site.parts] at hp
  | grouping e | unary _ e | get e _ | assign _ _ e =>
    simp only [Site.parts, List.mem_singleton, Prod.mk.injEq] at hp
    obtain ⟨rfl, rfl⟩ := hp
    exact ⟨hc, h.receiver⟩
  | binary left _ right | logical left _ right | call left _ right | set right _ left =>
    simp only [Site.parts, List.mem_cons, List.not_mem_nil, or_false, Prod.mk.injEq] at hp
    rcases hp with ⟨rfl, rfl⟩ | ⟨rfl, rfl⟩
    · exact ⟨hc, h.receiver⟩
    · rw [← after left] at hc
      exact ⟨hc, (after left).symm ▸ h.receiver⟩

theorem stmt_part {s : Stmt} {v : Visit} (h : (Site.stmt s).Steady v) (hf : (Site.stmt s).Fine v)
    {part : Site} {w : Visit} (hp : (part, w) ∈ (Site.stmt s).parts v) : part.Steady w := by
  have hc : ∀ scope ∈ v.scopes, Complete scope := h.complete
  have hr := h.receiver
  have hs := hf.proper
  have after : ∀ e : Expr, (v.after (.expr e)).scopes = v.scopes := fun e => e.resolve_scopes _
  cases s with
  | expression e | print e =>
    simp only [Site.parts, List.mem_singleton, Prod.mk.injEq] at hp
    obtain ⟨rfl, rfl⟩ := hp
    exact ⟨tail hc, hr⟩
  | var name init =>
    cases init with
    | none => simp [Site.parts] at hp
    | some e =>
      simp only [Site.parts, List.mem_singleton, Prod.mk.injEq] at hp
      obtain ⟨rfl, rfl⟩ := hp
      rw [Site.Proper, Stmt.Proper] at hs
      have hclean : (e.resolve (v.resolution.declare name)).Clean :=
        Resolution.Clean.of_define hf.clean
      obtain ⟨hd, -⟩ := ((e.resolve_reaches _).clean hclean).declare_scopes
      refine ⟨?_, ?_⟩ <;> simp only [Site.settled, Visit.scopes, hd]
      · exact complete_tail_withPending hc name
      · exact settled_withPending hr hs
  | block body =>
    simp only [Site.parts, List.mem_singleton, Prod.mk.injEq] at hp
    obtain ⟨rfl, rfl⟩ := hp
    rw [Site.Proper, Stmt.Proper] at hs
    obtain ⟨scope, hscope⟩ := afterAll_cons body .empty v.scopes
    exact @opening _ _ _ _ _ v.scopes rfl ((Stmt.resolveAll_scopes body _ hs).trans hscope) rfl
      (List.forall_mem_cons.2 ⟨complete_empty, hc⟩) (get?_afterAll hs.declared_ne hscope) hr
  | cond test thenPart elsePart =>
    cases elsePart with
    | none =>
      simp only [Site.parts, List.mem_cons, List.not_mem_nil, or_false, Prod.mk.injEq] at hp
      rcases hp with ⟨rfl, rfl⟩ | ⟨rfl, rfl⟩
      · exact ⟨tail hc, hr⟩
      · rw [← after test] at hc hr
        exact ⟨hc, hr⟩
    | some elsePart =>
      rw [Site.Proper, Stmt.Proper] at hs
      simp only [Site.parts, List.mem_cons, List.not_mem_nil, or_false, Prod.mk.injEq] at hp
      rcases hp with ⟨rfl, rfl⟩ | ⟨rfl, rfl⟩ | ⟨rfl, rfl⟩
      · exact ⟨tail hc, hr⟩
      · rw [← after test] at hc hr
        exact ⟨hc, hr⟩
      · have : ((v.after (.expr test)).after (.stmt thenPart)).scopes = v.scopes := by
          rw [Visit.scopes, Visit.after, Site.resolve, thenPart.resolve_scopes _ hs.1.2, hs.1.1]
          exact after test
        rw [← this] at hc hr
        exact ⟨hc, hr⟩
  | «while» test body =>
    simp only [Site.parts, List.mem_cons, List.not_mem_nil, or_false, Prod.mk.injEq] at hp
    rcases hp with ⟨rfl, rfl⟩ | ⟨rfl, rfl⟩
    · exact ⟨tail hc, hr⟩
    · rw [← after test] at hc hr
      exact ⟨hc, hr⟩
  | function decl =>
    simp only [Site.parts, List.mem_singleton, Prod.mk.injEq] at hp
    obtain ⟨rfl, rfl⟩ := hp
    have : ((v.resolution.declare decl.name).define decl.name).scopes =
        withDefined decl.name v.scopes := by
      rw [Resolution.define_scopes, Resolution.withDefined_declare]; rfl
    refine ⟨?_, ?_⟩
    · simp only [Site.settled, Visit.scopes, this]
      exact complete_withDefined hc _
    · simp only [Visit.scopes, this]
      exact settled_withDefined hr _
  | ret keyword value =>
    cases value with
    | none => simp [Site.parts] at hp
    | some e =>
      simp only [Site.parts, List.mem_singleton, Prod.mk.injEq] at hp
      obtain ⟨rfl, rfl⟩ := hp
      refine ⟨?_, ?_⟩ <;> simp only [Site.settled, Visit.scopes, Resolution.checkReturn_scopes]
      · exact tail hc
      · exact hr
  | «class» name decls =>
    simp only [Site.parts, List.mem_singleton, Prod.mk.injEq] at hp
    obtain ⟨rfl, rfl⟩ := hp
    rw [Site.Proper, Stmt.Proper] at hs
    refine opening (insideClass_scopes _ name)
      ((FunctionDecl.resolveMethods_scopes decls _ hs.2).trans (insideClass_scopes _ name)) rfl ?_ rfl
      (settled_withDefined hr name)
    exact List.forall_mem_cons.2 ⟨complete_empty.set _, complete_withDefined hc name⟩

theorem part {site : Site} {v : Visit} (h : site.Steady v) (hf : site.Fine v) {part : Site}
    {w : Visit} (hp : (part, w) ∈ site.parts v) : part.Steady w := by
  have hr := h.receiver
  match site, h with
  | .expr e, h => exact h.expr_part hp
  | .stmt s, h => exact h.stmt_part hf hp
  | .exprs [], _ | .stmts [], _ | .methods [], _ => simp [Site.parts] at hp
  | .exprs (e :: rest), h =>
    have hc : ∀ scope ∈ v.scopes.tail, Complete scope := h.complete
    have after : (v.after (.expr e)).scopes = v.scopes := e.resolve_scopes _
    simp only [Site.parts, List.mem_cons, List.not_mem_nil, or_false, Prod.mk.injEq] at hp
    rcases hp with ⟨rfl, rfl⟩ | ⟨rfl, rfl⟩
    · exact ⟨hc, hr⟩
    · rw [← after] at hc hr
      exact ⟨hc, hr⟩
  | .stmts (s :: rest), h =>
    have hc : ∀ scope ∈ v.scopes, Complete scope := h.complete
    have hs := hf.proper
    rw [Site.Proper, Stmt.AllProper] at hs
    simp only [Site.parts, List.mem_cons, List.not_mem_nil, or_false, Prod.mk.injEq] at hp
    rcases hp with ⟨rfl, rfl⟩ | ⟨rfl, rfl⟩
    · exact ⟨hc, hr⟩
    · have after : (v.after (.stmt s)).scopes = withDeclared s.declared? v.scopes :=
        s.resolve_scopes _ hs.1
      refine ⟨?_, ?_⟩ <;> simp only [Site.settled, after]
      · exact complete_withDeclared hc _
      · exact settled_withDeclared hr _
  | .function (.mk _ params body) context, h =>
    have hc : ∀ scope ∈ v.scopes, Complete scope := h.complete
    have hs := hf.proper
    rw [Site.Proper, FunctionDecl.Proper] at hs
    simp only [Site.parts, List.mem_singleton, Prod.mk.injEq] at hp
    obtain ⟨rfl, rfl⟩ := hp
    obtain ⟨inner, hinner⟩ := foldl_withDefined_cons params .empty v.scopes
    obtain ⟨scope, hscope⟩ := afterAll_cons body inner v.scopes
    have hi : (v.resolution.insideFunction context params).scopes = inner :: v.scopes :=
      (insideFunction_scopes _ context params).trans hinner
    refine opening hi ?_ rfl ?_ (get?_afterAll hs.2.declared_ne hscope) hr
    · rw [Site.resolve, Stmt.resolveAll_scopes body _ hs.2, hi]
      exact hscope
    · exact List.forall_mem_cons.2 ⟨complete_of_params complete_empty hinner, hc⟩
  | .methods (decl :: rest), h =>
    have hc : ∀ scope ∈ v.scopes, Complete scope := h.complete
    have hs := hf.proper
    rw [Site.Proper, FunctionDecl.AllProper] at hs
    simp only [Site.parts, List.mem_cons, List.not_mem_nil, or_false, Prod.mk.injEq] at hp
    rcases hp with ⟨rfl, rfl⟩ | ⟨rfl, rfl⟩
    · exact ⟨hc, hr⟩
    · have after := decl.resolve_scopes (if decl.isInit then .initializer else .method)
        v.resolution hs.1
      refine ⟨?_, ?_⟩ <;>
        simp only [Site.settled, Visit.scopes, Visit.after, Site.resolve, after]
      · exact hc
      · exact hr

end Site.Steady

/-- Every visit of an accepted program is steady. -/
theorem Visited.steady {program : List Stmt} {distances : Std.HashMap NodeId Nat}
    (hp : Stmt.AllProper program) (hc : (resolve program distances).Clean) {site : Site} {v : Visit}
    (h : Visited program distances site v) : site.Steady v := by
  induction h with
  | program =>
    refine ⟨fun scope hs => ?_, .nil⟩
    cases hs
  | part hv hpart ih => exact ih.part (hv.fine hp hc) hpart

end Lox
