/-
Programs in which no scope declares a name behind a reference to it, nor with a
reference to it in the initializer (`InOrder`). At every visit of such a program
a name that is referred to is already defined in each open scope that will ever
have it (`Site.Ordered.settled`), so no later declaration comes between the
reference and the scope in which the resolver finds it.
-/
import Lox.Proofs.Scope.Distance
import Lox.Proofs.Scope.Standing

namespace Lox

/-- Some reference reads or writes the name. -/
def Mentions (refs : List Reference) (name : String) : Prop :=
  ∃ ref ∈ refs, ref.sort ≠ .receiver ∧ ref.name.lexeme = name

theorem Mentions.mono {refs refs' : List Reference} (h : refs.Sublist refs') {name : String}
    (hm : Mentions refs name) : Mentions refs' name := by
  obtain ⟨ref, href, hs, hn⟩ := hm
  exact ⟨ref, h.subset href, hs, hn⟩

/-- The name is not in the initializer of its declaration. -/
def Stmt.OutsideInitializer : Stmt → Prop
  | .var name (some e) => ¬ Mentions e.references name.lexeme
  | _ => True

/-- The statements of a scope declare no name that they mentioned before or mention in the
initializer. -/
@[mk_iff]
structure DeclaredFirst (body : List Stmt) : Prop where
  before : body.Pairwise fun s t =>
    ∀ name, t.declared? = some name → ¬ Mentions s.references name.lexeme
  initializer : ∀ s ∈ body, s.OutsideInitializer

mutual

/-- Every scope of a block, a function or a method inside declares its names first. -/
def Stmt.InOrder : Stmt → Prop
  | .block body => DeclaredFirst body ∧ Stmt.AllInOrder body
  | .cond _ thenPart none => thenPart.InOrder
  | .cond _ thenPart (some elsePart) => thenPart.InOrder ∧ elsePart.InOrder
  | .while _ body => body.InOrder
  | .function decl => decl.InOrder
  | .class _ methods => FunctionDecl.AllInOrder methods
  | .expression _ | .print _ | .var .. | .ret .. => True

def Stmt.AllInOrder : List Stmt → Prop
  | [] => True
  | s :: rest => s.InOrder ∧ Stmt.AllInOrder rest

def FunctionDecl.InOrder : FunctionDecl → Prop
  | .mk _ _ body => DeclaredFirst body ∧ Stmt.AllInOrder body

def FunctionDecl.AllInOrder : List FunctionDecl → Prop
  | [] => True
  | d :: rest => d.InOrder ∧ FunctionDecl.AllInOrder rest

end

namespace Site

/-- The site declares the name in the innermost scope. -/
def Declares : Site → String → Prop
  | .stmt s, n => ∃ name, s.declared? = some name ∧ name.lexeme = n
  | .stmts ss, n => ∃ s ∈ ss, ∃ name, s.declared? = some name ∧ name.lexeme = n
  | _, _ => False

/-- The scopes inside the site declare their names first, and so does the one around it. -/
def InOrder : Site → List Scope → Prop
  | .expr _, _ | .exprs _, _ => True
  | .stmt s, scopes => s.InOrder ∧ (scopes ≠ [] → s.OutsideInitializer)
  | .stmts ss, scopes => Stmt.AllInOrder ss ∧ (scopes ≠ [] → DeclaredFirst ss)
  | .function decl _, _ => decl.InOrder
  | .methods decls, _ => FunctionDecl.AllInOrder decls

/-- What is known at the visit of a site of a program in order. -/
structure Ordered (site : Site) (v : Visit) : Prop where
  order : site.InOrder v.scopes
  settled : ∀ n, Mentions site.references n → ¬ site.Declares n →
    List.Forall₂ (Settled n) v.scopes v.closing
  /-- A name that the site declares itself is settled in the scopes further out. -/
  outer : ∀ n, Mentions site.references n → List.Forall₂ (Settled n) v.scopes.tail v.closing.tail

end Site

/-! ## Settled names -/

theorem settled_tail {n : String} {scopes closing : List Scope}
    (h : List.Forall₂ (Settled n) scopes closing) :
    List.Forall₂ (Settled n) scopes.tail closing.tail := by
  cases h with
  | nil => exact .nil
  | cons _ h => exact h

theorem closing_nil {scopes closing : List Scope} (hg : Grows scopes closing) (h : scopes = []) :
    closing = [] :=
  List.forall₂_nil_left_iff.1 (h ▸ hg)

/-- A name that is settled further out is settled once it is defined. -/
theorem settled_withDefined_self {scopes closing : List Scope} (hg : Grows scopes closing)
    {name : Token} (h : List.Forall₂ (Settled name.lexeme) scopes.tail closing.tail) :
    List.Forall₂ (Settled name.lexeme) (withDefined name scopes) closing := by
  cases hg with
  | nil => exact .nil
  | cons _ _ =>
    refine .cons (fun _ => ?_) h
    rw [Bindings.get?_set, if_pos rfl]

/-- The scopes behind a statement that declares a name, or none. -/
theorem settled_declared {n : String} {s : Stmt} {scopes closing : List Scope}
    (hg : Grows scopes closing)
    (h : ¬ (Site.stmt s).Declares n → List.Forall₂ (Settled n) scopes closing)
    (ho : List.Forall₂ (Settled n) scopes.tail closing.tail) :
    List.Forall₂ (Settled n) (withDeclared s.declared? scopes) closing := by
  by_cases hd : (Site.stmt s).Declares n
  · obtain ⟨name, hs, rfl⟩ := hd
    rw [hs]
    exact settled_withDefined_self hg ho
  · exact settled_withDeclared (h hd) _

namespace Site.Ordered

variable {v : Visit}

/-- A site that declares nothing knows that each name is settled. -/
theorem all {site : Site} (h : site.Ordered v) (hd : ∀ n, ¬ site.Declares n) :
    ∀ n, Mentions site.references n → List.Forall₂ (Settled n) v.scopes v.closing :=
  fun n hm => h.settled n hm (hd n)

theorem intro {site : Site} (ho : site.InOrder v.scopes)
    (h : ∀ n, Mentions site.references n → List.Forall₂ (Settled n) v.scopes v.closing) :
    site.Ordered v :=
  ⟨ho, fun n hm _ => h n hm, fun n hm => settled_tail (h n hm)⟩

/-- The rest of a scope that was just opened. -/
theorem opening {inside : Resolution} {body : List Stmt} {scope closed : Scope} {outer : List Scope}
    (hi : inside.scopes = scope :: outer)
    (hc : (Site.resolve (.stmts body) inside).scopes = closed :: outer)
    (hclosed : afterAll body (scope :: outer) = closed :: outer) (hs : Complete scope)
    (ho : DeclaredFirst body ∧ Stmt.AllInOrder body)
    (h : ∀ n, Mentions (Stmt.allReferences body) n → List.Forall₂ (Settled n) outer v.closing) :
    (Site.stmts body).Ordered (v.opening inside (.stmts body)) := by
  have hscopes : (v.opening inside (.stmts body)).scopes = scope :: outer := hi
  have hclosing : (v.opening inside (.stmts body)).closing = closed :: v.closing := by
    rw [Visit.opening, hc]
    rfl
  refine ⟨⟨ho.2, fun _ => ho.1⟩, fun n hm hd => ?_, fun n hm => ?_⟩ <;> rw [hscopes, hclosing]
  · have hget : closed.get? n = scope.get? n := by
      refine get?_afterAll (fun s hs name hname he => hd ?_) hclosed
      exact ⟨s, hs, name, hname, he⟩
    exact .cons (hs.settled hget) (h n hm)
  · exact h n hm

/-- What is mentioned in a part is mentioned in the site. -/
theorem mentions {site part : Site} {w : Visit} (hp : (part, w) ∈ site.parts v) {n : String}
    (hm : Mentions part.references n) : Mentions site.references n :=
  hm.mono (Site.part_references hp)

theorem expr_part {e : Expr} (h : (Site.expr e).Ordered v) {part : Site} {w : Visit}
    (hp : (part, w) ∈ (Site.expr e).parts v) : part.Ordered w := by
  have hall := h.all fun n hd => hd
  have hpart : ∀ n, Mentions part.references n → List.Forall₂ (Settled n) v.scopes v.closing :=
    fun n hm => hall n (mentions hp hm)
  have after : ∀ e' : Expr, (v.after (.expr e')).scopes = v.scopes := fun e' => e'.resolve_scopes _
  cases e with
  | literal | «variable» | this => simp [Site.parts] at hp
  | grouping e | unary _ e | get e _ | assign _ _ e =>
    simp only [Site.parts, List.mem_singleton, Prod.mk.injEq] at hp
    obtain ⟨rfl, rfl⟩ := hp
    exact intro trivial hpart
  | binary left _ right | logical left _ right | call left _ right | set right _ left =>
    simp only [Site.parts, List.mem_cons, List.not_mem_nil, or_false, Prod.mk.injEq] at hp
    rcases hp with ⟨rfl, rfl⟩ | ⟨rfl, rfl⟩
    · exact intro trivial hpart
    · rw [← after left] at hpart
      exact intro trivial hpart

/-- A statement that declares nothing stands anywhere. -/
theorem of_undeclared {s : Stmt} (hd : s.declared? = none) (ho : s.InOrder)
    (h : ∀ n, Mentions s.references n → List.Forall₂ (Settled n) v.scopes v.closing) :
    (Site.stmt s).Ordered v := by
  refine intro ⟨ho, fun _ => ?_⟩ h
  cases s with
  | var => cases hd
  | _ => trivial

/-- An initializer does not mention the name that is pending, and what it mentions is settled. -/
theorem initializer {name : Token} {e : Expr} (h : (Site.stmt (.var name (some e))).Ordered v)
    (hf : (Site.stmt (.var name (some e))).Fine v) :
    (Site.expr e).Ordered { v with resolution := v.resolution.declare name } := by
  have hclean : (e.resolve (v.resolution.declare name)).Clean :=
    Resolution.Clean.of_define hf.clean
  obtain ⟨hd, -⟩ := ((e.resolve_reaches _).clean hclean).declare_scopes
  refine intro trivial fun n hm => ?_
  simp only [Visit.scopes, hd]
  by_cases hnil : v.scopes = []
  · rw [closing_nil hf.before_stmt hnil, show v.resolution.scopes = [] from hnil]
    exact .nil
  · have hne : name.lexeme ≠ n := by
      rintro rfl
      exact h.order.2 hnil hm
    refine settled_withPending (h.settled n hm ?_) hne
    rintro ⟨name', hname, hn⟩
    cases hname
    exact hne hn

theorem stmt_part {s : Stmt} (h : (Site.stmt s).Ordered v) (hf : (Site.stmt s).Fine v)
    {part : Site} {w : Visit} (hp : (part, w) ∈ (Site.stmt s).parts v) : part.Ordered w := by
  have hs := hf.proper
  have hg := hf.before_stmt
  have ho : s.InOrder := h.order.1
  have after : ∀ e : Expr, (v.after (.expr e)).scopes = v.scopes := fun e => e.resolve_scopes _
  have hpart : s.declared? = none → ∀ n, Mentions part.references n →
      List.Forall₂ (Settled n) v.scopes v.closing := by
    intro hnone n hm
    refine h.all (fun n hd => ?_) n (mentions hp hm)
    obtain ⟨name, hname, -⟩ := hd
    rw [hnone] at hname
    cases hname
  have hdeclared : ∀ n, Mentions part.references n →
      List.Forall₂ (Settled n) (withDeclared s.declared? v.scopes) v.closing := fun n hm =>
    settled_declared hg (h.settled n (mentions hp hm)) (h.outer n (mentions hp hm))
  cases s with
  | expression e | print e =>
    simp only [Site.parts, List.mem_singleton, Prod.mk.injEq] at hp
    obtain ⟨rfl, rfl⟩ := hp
    exact intro trivial (hpart rfl)
  | var name init =>
    cases init with
    | none => simp [Site.parts] at hp
    | some e =>
      simp only [Site.parts, List.mem_singleton, Prod.mk.injEq] at hp
      obtain ⟨rfl, rfl⟩ := hp
      exact h.initializer hf
  | block body =>
    simp only [Site.parts, List.mem_singleton, Prod.mk.injEq] at hp
    obtain ⟨rfl, rfl⟩ := hp
    rw [Site.Proper, Stmt.Proper] at hs
    rw [Stmt.InOrder] at ho
    obtain ⟨scope, hscope⟩ := afterAll_cons body .empty v.scopes
    exact opening rfl ((Stmt.resolveAll_scopes body _ hs).trans hscope) hscope complete_empty ho
      (hpart rfl)
  | cond test thenPart elsePart =>
    cases elsePart with
    | none =>
      rw [Site.Proper, Stmt.Proper] at hs
      rw [Stmt.InOrder] at ho
      simp only [Site.parts, List.mem_cons, List.not_mem_nil, or_false, Prod.mk.injEq] at hp
      rcases hp with ⟨rfl, rfl⟩ | ⟨rfl, rfl⟩
      · exact intro trivial (hpart rfl)
      · rw [← after test] at hpart
        exact of_undeclared hs.1 ho (hpart rfl)
    | some elsePart =>
      rw [Site.Proper, Stmt.Proper] at hs
      rw [Stmt.InOrder] at ho
      simp only [Site.parts, List.mem_cons, List.not_mem_nil, or_false, Prod.mk.injEq] at hp
      rcases hp with ⟨rfl, rfl⟩ | ⟨rfl, rfl⟩ | ⟨rfl, rfl⟩
      · exact intro trivial (hpart rfl)
      · rw [← after test] at hpart
        exact of_undeclared hs.1.1 ho.1 (hpart rfl)
      · have hscopes : ((v.after (.expr test)).after (.stmt thenPart)).scopes = v.scopes := by
          rw [Visit.scopes, Visit.after, Site.resolve, thenPart.resolve_scopes _ hs.1.2, hs.1.1]
          exact after test
        rw [← hscopes] at hpart
        exact of_undeclared hs.2.1 ho.2 (hpart rfl)
  | «while» test body =>
    rw [Site.Proper, Stmt.Proper] at hs
    rw [Stmt.InOrder] at ho
    simp only [Site.parts, List.mem_cons, List.not_mem_nil, or_false, Prod.mk.injEq] at hp
    rcases hp with ⟨rfl, rfl⟩ | ⟨rfl, rfl⟩
    · exact intro trivial (hpart rfl)
    · rw [← after test] at hpart
      exact of_undeclared hs.1 ho (hpart rfl)
  | function decl =>
    simp only [Site.parts, List.mem_singleton, Prod.mk.injEq] at hp
    obtain ⟨rfl, rfl⟩ := hp
    rw [Stmt.InOrder] at ho
    refine intro ho fun n hm => ?_
    simp only [Visit.scopes, Resolution.define_scopes, Resolution.withDefined_declare]
    exact hdeclared n hm
  | ret keyword value =>
    cases value with
    | none => simp [Site.parts] at hp
    | some e =>
      simp only [Site.parts, List.mem_singleton, Prod.mk.injEq] at hp
      obtain ⟨rfl, rfl⟩ := hp
      refine intro trivial fun n hm => ?_
      simp only [Visit.scopes, Resolution.checkReturn_scopes]
      exact hpart rfl n hm
  | «class» name decls =>
    simp only [Site.parts, List.mem_singleton, Prod.mk.injEq] at hp
    obtain ⟨rfl, rfl⟩ := hp
    rw [Site.Proper, Stmt.Proper] at hs
    rw [Stmt.InOrder] at ho
    have hinside := insideClass_scopes v.resolution name
    refine intro ho fun n hm => ?_
    rw [Visit.opening, Site.resolve, FunctionDecl.resolveMethods_scopes decls _ hs.2, Visit.scopes,
      hinside]
    exact .cons ((complete_empty.set receiverName).settled rfl) (hdeclared n hm)

/-- A part of a site in order is in order. -/
theorem part {site : Site} (h : site.Ordered v) (hf : site.Fine v) {part : Site} {w : Visit}
    (hp : (part, w) ∈ site.parts v) : part.Ordered w := by
  have hmentions := fun n => @mentions v _ _ _ hp n
  match site, h with
  | .expr e, h => exact h.expr_part hp
  | .stmt s, h => exact h.stmt_part hf hp
  | .exprs [], _ | .stmts [], _ | .methods [], _ => simp [Site.parts] at hp
  | .exprs (e :: rest), h =>
    have hall := h.all fun n hd => hd
    have after : (v.after (.expr e)).scopes = v.scopes := e.resolve_scopes _
    simp only [Site.parts, List.mem_cons, List.not_mem_nil, or_false, Prod.mk.injEq] at hp
    rcases hp with ⟨rfl, rfl⟩ | ⟨rfl, rfl⟩
    · exact intro trivial fun n hm => hall n (hmentions n hm)
    · refine intro trivial fun n hm => ?_
      rw [after]
      exact hall n (hmentions n hm)
  | .stmts (s :: rest), h =>
    have hs := hf.proper
    rw [Site.Proper, Stmt.AllProper] at hs
    obtain ⟨ho, hfirst⟩ := h.order
    rw [Stmt.AllInOrder] at ho
    simp only [Site.parts, List.mem_cons, List.not_mem_nil, or_false, Prod.mk.injEq] at hp
    rcases hp with ⟨rfl, rfl⟩ | ⟨rfl, rfl⟩
    · refine ⟨⟨ho.1, fun hne => (hfirst hne).initializer s (List.mem_cons_self ..)⟩,
        fun n hm hd => ?_, fun n hm => h.outer n (hmentions n hm)⟩
      by_cases hnil : w.scopes = []
      · rw [closing_nil hf.before_stmts hnil, hnil]
        exact .nil
      · refine h.settled n (hmentions n hm) ?_
        rintro ⟨t, ht, name, hname, rfl⟩
        rcases List.mem_cons.1 ht with rfl | ht
        · exact hd ⟨name, hname, rfl⟩
        · exact (List.pairwise_cons.1 (hfirst hnil).before).1 t ht name hname hm
    · have after : (v.after (.stmt s)).scopes = withDeclared s.declared? v.scopes :=
        s.resolve_scopes _ hs.1
      refine ⟨⟨ho.2, fun hne => ?_⟩, fun n hm hd => ?_, fun n hm => ?_⟩ <;> rw [after] at *
      · have hfirst := hfirst (by rintro hnil; exact hne (by rw [hnil, withDeclared_nil]))
        exact ⟨(List.pairwise_cons.1 hfirst.before).2,
          (List.forall_mem_cons.1 hfirst.initializer).2⟩
      · refine settled_declared hf.before_stmts (fun hs => ?_) (h.outer n (hmentions n hm))
        refine h.settled n (hmentions n hm) ?_
        rintro ⟨t, ht, name, hname, rfl⟩
        rcases List.mem_cons.1 ht with rfl | ht
        · exact hs ⟨name, hname, rfl⟩
        · exact hd ⟨t, ht, name, hname, rfl⟩
      · rw [tail_withDeclared]
        exact h.outer n (hmentions n hm)
  | .function (.mk name params body) context, h =>
    have hall := h.all fun n hd => hd
    have hs := hf.proper
    rw [Site.Proper, FunctionDecl.Proper] at hs
    have ho : DeclaredFirst body ∧ Stmt.AllInOrder body := h.order
    simp only [Site.parts, List.mem_singleton, Prod.mk.injEq] at hp
    obtain ⟨rfl, rfl⟩ := hp
    obtain ⟨inner, hinner⟩ := foldl_withDefined_cons params .empty v.scopes
    obtain ⟨scope, hscope⟩ := afterAll_cons body inner v.scopes
    have hi : (v.resolution.insideFunction context params).scopes = inner :: v.scopes :=
      (insideFunction_scopes _ context params).trans hinner
    have hcomplete := complete_of_params complete_empty hinner
    refine opening hi ?_ hscope hcomplete ho fun n hm => hall n (hmentions n hm)
    rw [Site.resolve, Stmt.resolveAll_scopes body _ hs.2, hi]
    exact hscope
  | .methods (decl :: rest), h =>
    have hall := h.all fun n hd => hd
    have hs := hf.proper
    rw [Site.Proper, FunctionDecl.AllProper] at hs
    have ho : decl.InOrder ∧ FunctionDecl.AllInOrder rest := h.order
    simp only [Site.parts, List.mem_cons, List.not_mem_nil, or_false, Prod.mk.injEq] at hp
    rcases hp with ⟨rfl, rfl⟩ | ⟨rfl, rfl⟩
    · exact intro ho.1 fun n hm => hall n (hmentions n hm)
    · refine intro ho.2 fun n hm => ?_
      rw [Visit.scopes, Visit.after, Site.resolve, decl.resolve_scopes _ _ hs.1]
      exact hall n (hmentions n hm)

end Site.Ordered

/-- Every visit of an accepted program in order is in order. -/
theorem Visited.ordered {program : List Stmt} {distances : Std.HashMap NodeId Nat}
    (hp : Stmt.AllProper program) (hc : (resolve program distances).Clean)
    (ho : Stmt.AllInOrder program) {site : Site} {v : Visit}
    (h : Visited program distances site v) : site.Ordered v := by
  induction h with
  | program => exact ⟨⟨ho, fun hne => absurd rfl hne⟩, fun _ _ _ => .nil, fun _ _ => .nil⟩
  | part hv hpart ih => exact ih.part (hv.fine hp hc) hpart

end Lox
