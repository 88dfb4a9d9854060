/-
What the walk records. Each reference gets the distance that the scopes at its
visit give, and keeps it to the end of the walk, provided that no two references
of the program have one number and none has a number that was used before.
-/
import Lox.Proofs.Scope.Visit

namespace Lox

namespace Resolution

@[simp] theorem declare_distances (r : Resolution) (name : Token) :
    (r.declare name).distances = r.distances := by
  unfold declare
  split
  · rfl
  · split <;> rfl

@[simp] theorem define_distances (r : Resolution) (name : Token) :
    (r.define name).distances = r.distances := by
  unfold define
  split <;> rfl

@[simp] theorem addParams_distances (r : Resolution) (params : List Token) :
    (r.addParams params).distances = r.distances := by
  induction params generalizing r with
  | nil => rfl
  | cons name rest ih =>
    simp only [addParams, List.foldl_cons] at ih ⊢
    rw [ih, define_distances, declare_distances]

@[simp] theorem checkReturn_distances (r : Resolution) (keyword : Token) (hasValue : Bool) :
    (r.checkReturn keyword hasValue).distances = r.distances := by
  simp only [checkReturn]
  split <;> split <;> rfl

theorem insideFunction_distances (r : Resolution) (context : FunctionContext) (params : List Token) :
    (r.insideFunction context params).distances = r.distances :=
  addParams_distances _ params

theorem insideClass_distances (r : Resolution) (name : Token) :
    (r.insideClass name).distances = r.distances :=
  (define_distances _ name).trans (declare_distances _ name)

theorem record_distances_self (r : Resolution) (id : NodeId) (name : Token) :
    (r.record id name).distances[id]? = (distance? r.scopes name.lexeme).or r.distances[id]? := by
  unfold record
  split
  next d h => simp [h]
  next h => simp [h]

theorem record_distances_of_ne (r : Resolution) {id other : NodeId} (name : Token)
    (h : other ≠ id) : (r.record id name).distances[other]? = r.distances[other]? := by
  unfold record
  split
  · rw [Std.HashMap.getElem?_insert, if_neg (by simpa using h.symm)]
  · rfl

end Resolution

/-! ## References elsewhere -/

mutual

/-- An expression records nothing for a number that is none of its references'. -/
theorem Expr.resolve_distances : ∀ (e : Expr) (r : Resolution) {id : NodeId},
    id ∉ (Site.expr e).ids → (e.resolve r).distances[id]? = r.distances[id]?
  | .literal _, _, _, _ => rfl
  | .grouping e, r, _, h => e.resolve_distances r h
  | .unary _ e, r, _, h => e.resolve_distances r h
  | .binary left _ right, r, id, h => by
    simp only [Site.ids, Site.references, Expr.references, List.map_append, List.mem_append,
      not_or] at h
    rw [Expr.resolve, right.resolve_distances _ h.2, left.resolve_distances r h.1]
  | .logical left _ right, r, id, h => by
    simp only [Site.ids, Site.references, Expr.references, List.map_append, List.mem_append,
      not_or] at h
    rw [Expr.resolve, right.resolve_distances _ h.2, left.resolve_distances r h.1]
  | .variable id' name, r, id, h => by
    simp only [Site.ids, Site.references, Expr.references, List.map_cons, List.map_nil,
      List.mem_singleton] at h
    rw [Expr.resolve, Resolution.record_distances_of_ne _ name h]
    split <;> rfl
  | .assign id' name e, r, id, h => by
    simp only [Site.ids, Site.references, Expr.references, List.map_cons, List.mem_cons,
      not_or] at h
    rw [Expr.resolve, Resolution.record_distances_of_ne _ name h.1, e.resolve_distances r h.2]
  | .call callee _ args, r, id, h => by
    simp only [Site.ids, Site.references, Expr.references, List.map_append, List.mem_append,
      not_or] at h
    rw [Expr.resolve, Expr.resolveAll_distances args _ h.2, callee.resolve_distances r h.1]
  | .get object _, r, _, h => object.resolve_distances r h
  | .set object _ e, r, id, h => by
    simp only [Site.ids, Site.references, Expr.references, List.map_append, List.mem_append,
      not_or] at h
    rw [Expr.resolve, object.resolve_distances _ h.1, e.resolve_distances r h.2]
  | .this id' keyword, r, id, h => by
    simp only [Site.ids, Site.references, Expr.references, List.map_cons, List.map_nil,
      List.mem_singleton] at h
    rw [Expr.resolve]
    split
    · exact Resolution.record_distances_of_ne _ keyword h
    · rfl

theorem Expr.resolveAll_distances : ∀ (es : List Expr) (r : Resolution) {id : NodeId},
    id ∉ (Site.exprs es).ids → (Expr.resolveAll es r).distances[id]? = r.distances[id]?
  | [], _, _, _ => rfl
  | e :: rest, r, id, h => by
    simp only [Site.ids, Site.references, Expr.allReferences, List.map_append, List.mem_append,
      not_or] at h
    rw [Expr.resolveAll, Expr.resolveAll_distances rest _ h.2, e.resolve_distances r h.1]

end

mutual

/-- A statement records nothing for a number that is none of its references'. -/
theorem Stmt.resolve_distances : ∀ (s : Stmt) (r : Resolution) {id : NodeId},
    id ∉ (Site.stmt s).ids → (s.resolve r).distances[id]? = r.distances[id]?
  | .expression e, r, _, h => e.resolve_distances r h
  | .print e, r, _, h => e.resolve_distances r h
  | .var name none, r, _, _ => by simp [Stmt.resolve]
  | .var name (some e), r, id, h => by
    rw [Stmt.resolve, Resolution.define_distances, e.resolve_distances _ h,
      Resolution.declare_distances]
  | .block body, r, _, h => Stmt.resolveAll_distances body _ h
  | .cond test thenPart none, r, id, h => by
    simp only [Site.ids, Site.references, Stmt.references, List.map_append, List.mem_append,
      not_or] at h
    rw [Stmt.resolve, thenPart.resolve_distances _ h.2, test.resolve_distances r h.1]
  | .cond test thenPart (some elsePart), r, id, h => by
    simp only [Site.ids, Site.references, Stmt.references, List.map_append, List.mem_append,
      not_or] at h
    rw [Stmt.resolve, elsePart.resolve_distances _ h.2, thenPart.resolve_distances _ h.1.2,
      test.resolve_distances r h.1.1]
  | .while test body, r, id, h => by
    simp only [Site.ids, Site.references, Stmt.references, List.map_append, List.mem_append,
      not_or] at h
    rw [Stmt.resolve, body.resolve_distances _ h.2, test.resolve_distances r h.1]
  | .function decl, r, id, h => by
    rw [Stmt.resolve, decl.resolve_distances _ _ h, Resolution.define_distances,
      Resolution.declare_distances]
  | .ret keyword none, r, _, _ => by simp [Stmt.resolve]
  | .ret keyword (some e), r, id, h => by
    rw [Stmt.resolve, e.resolve_distances _ h, Resolution.checkReturn_distances]
  | .class name decls, r, id, h => by
    simp only [Stmt.resolve, Resolution.pop]
    rw [FunctionDecl.resolveMethods_distances decls _ h]
    exact congrArg (·[id]?) (r.insideClass_distances name)

theorem Stmt.resolveAll_distances : ∀ (ss : List Stmt) (r : Resolution) {id : NodeId},
    id ∉ (Site.stmts ss).ids → (Stmt.resolveAll ss r).distances[id]? = r.distances[id]?
  | [], _, _, _ => rfl
  | s :: rest, r, id, h => by
    simp only [Site.ids, Site.references, Stmt.allReferences, List.map_append, List.mem_append,
      not_or] at h
    rw [Stmt.resolveAll, Stmt.resolveAll_distances rest _ h.2, s.resolve_distances r h.1]

theorem FunctionDecl.resolve_distances : ∀ (d : FunctionDecl) (context : FunctionContext)
    (r : Resolution) {id : NodeId}, id ∉ (Site.function d context).ids →
    (d.resolve context r).distances[id]? = r.distances[id]?
  | .mk _ params body, context, r, id, h => by
    simp only [FunctionDecl.resolve, Resolution.pop]
    rw [Stmt.resolveAll_distances body _ h]
    exact congrArg (·[id]?) (r.insideFunction_distances context params)

theorem FunctionDecl.resolveMethods_distances : ∀ (ds : List FunctionDecl) (r : Resolution)
    {id : NodeId}, id ∉ (Site.methods ds).ids →
    (FunctionDecl.resolveMethods ds r).distances[id]? = r.distances[id]?
  | [], _, _, _ => rfl
  | d :: rest, r, id, h => by
    simp only [Site.ids, Site.references, FunctionDecl.allReferences, List.map_append,
      List.mem_append, not_or] at h
    rw [FunctionDecl.resolveMethods, FunctionDecl.resolveMethods_distances rest _ h.2,
      d.resolve_distances _ r h.1]

end

theorem Site.resolve_distances (site : Site) (r : Resolution) {id : NodeId} (h : id ∉ site.ids) :
    (site.resolve r).distances[id]? = r.distances[id]? := by
  cases site with
  | expr e => exact e.resolve_distances r h
  | exprs es => exact Expr.resolveAll_distances es r h
  | stmt s => exact s.resolve_distances r h
  | stmts ss => exact Stmt.resolveAll_distances ss r h
  | function decl context => exact decl.resolve_distances context r h
  | methods decls => exact FunctionDecl.resolveMethods_distances decls r h

/-! ## Parts -/

/-- What a part records stays as it is to the end of the site, and what it finds recorded was
there before the site. -/
theorem Site.part_distances {site : Site} {v : Visit} (hn : site.ids.Nodup) {part : Site} {w : Visit}
    (hp : (part, w) ∈ site.parts v) {id : NodeId} (hi : id ∈ part.ids) :
    (site.resolve v.resolution).distances[id]? = (part.resolve w.resolution).distances[id]? ∧
      w.resolution.distances[id]? = v.resolution.distances[id]? := by
  have fst : ∀ {a b : List NodeId}, (a ++ b).Nodup → id ∈ a → id ∉ b :=
    fun h ha hb => (List.nodup_append.1 h).2.2 id ha id hb rfl
  have snd : ∀ {a b : List NodeId}, (a ++ b).Nodup → id ∈ b → id ∉ a :=
    fun h hb ha => (List.nodup_append.1 h).2.2 id ha id hb rfl
  match site with
  | .expr (.literal _) | .expr (.variable ..) | .expr (.this ..) | .stmt (.var _ none)
  | .stmt (.ret _ none) | .exprs [] | .stmts [] | .methods [] => simp [Site.parts] at hp
  | .expr (.grouping _) | .expr (.unary ..) | .expr (.get ..) | .stmt (.expression _)
  | .stmt (.print _) =>
    simp only [Site.parts, List.mem_singleton, Prod.mk.injEq] at hp
    obtain ⟨rfl, rfl⟩ := hp
    exact ⟨rfl, rfl⟩
  | .expr (.assign id' name e) =>
    simp only [Site.parts, List.mem_singleton, Prod.mk.injEq] at hp
    obtain ⟨rfl, rfl⟩ := hp
    simp only [Site.ids, Site.references, Expr.references, List.map_cons, List.nodup_cons] at hn
    have hne : id ≠ id' := fun h => hn.1 (h ▸ hi)
    exact ⟨Resolution.record_distances_of_ne _ name hne, rfl⟩
  | .expr (.binary left _ right) | .expr (.logical left _ right) =>
    simp only [Site.ids, Site.references, Expr.references, List.map_append] at hn
    simp only [Site.parts, List.mem_cons, List.not_mem_nil, or_false, Prod.mk.injEq] at hp
    rcases hp with ⟨rfl, rfl⟩ | ⟨rfl, rfl⟩
    · exact ⟨right.resolve_distances _ (fst hn hi), rfl⟩
    · exact ⟨rfl, left.resolve_distances _ (snd hn hi)⟩
  | .expr (.call callee _ args) =>
    simp only [Site.ids, Site.references, Expr.references, List.map_append] at hn
    simp only [Site.parts, List.mem_cons, List.not_mem_nil, or_false, Prod.mk.injEq] at hp
    rcases hp with ⟨rfl, rfl⟩ | ⟨rfl, rfl⟩
    · exact ⟨Expr.resolveAll_distances args _ (fst hn hi), rfl⟩
    · exact ⟨rfl, callee.resolve_distances _ (snd hn hi)⟩
  | .expr (.set object _ e) =>
    -- The value comes first, although it stands behind the object.
    simp only [Site.ids, Site.references, Expr.references, List.map_append] at hn
    simp only [Site.parts, List.mem_cons, List.not_mem_nil, or_false, Prod.mk.injEq] at hp
    rcases hp with ⟨rfl, rfl⟩ | ⟨rfl, rfl⟩
    · exact ⟨object.resolve_distances _ (snd hn hi), rfl⟩
    · exact ⟨rfl, e.resolve_distances _ (fst hn hi)⟩
  | .exprs (e :: rest) =>
    simp only [Site.ids, Site.references, Expr.allReferences, List.map_append] at hn
    simp only [Site.parts, List.mem_cons, List.not_mem_nil, or_false, Prod.mk.injEq] at hp
    rcases hp with ⟨rfl, rfl⟩ | ⟨rfl, rfl⟩
    · exact ⟨Expr.resolveAll_distances rest _ (fst hn hi), rfl⟩
    · exact ⟨rfl, e.resolve_distances _ (snd hn hi)⟩
  | .stmt (.var name (some e)) =>
    simp only [Site.parts, List.mem_singleton, Prod.mk.injEq] at hp
    obtain ⟨rfl, rfl⟩ := hp
    refine ⟨?_, congrArg (·[id]?) (v.resolution.declare_distances name)⟩
    simp only [Site.resolve, Stmt.resolve, Resolution.define_distances]
  | .stmt (.block body) =>
    simp only [Site.parts, List.mem_singleton, Prod.mk.injEq] at hp
    obtain ⟨rfl, rfl⟩ := hp
    exact ⟨rfl, rfl⟩
  | .stmt (.cond test thenPart none) =>
    simp only [Site.ids, Site.references, Stmt.references, List.map_append] at hn
    simp only [Site.parts, List.mem_cons, List.not_mem_nil, or_false, Prod.mk.injEq] at hp
    rcases hp with ⟨rfl, rfl⟩ | ⟨rfl, rfl⟩
    · exact ⟨thenPart.resolve_distances _ (fst hn hi), rfl⟩
    · exact ⟨rfl, test.resolve_distances _ (snd hn hi)⟩
  | .stmt (.cond test thenPart (some elsePart)) =>
    simp only [Site.ids, Site.references, Stmt.references, List.map_append] at hn
    have hn' := (List.nodup_append.1 hn).1
    simp only [Site.parts, List.mem_cons, List.not_mem_nil, or_false, Prod.mk.injEq] at hp
    rcases hp with ⟨rfl, rfl⟩ | ⟨rfl, rfl⟩ | ⟨rfl, rfl⟩
    · refine ⟨?_, rfl⟩
      simp only [Site.resolve, Stmt.resolve]
      rw [elsePart.resolve_distances _ (fst hn (List.mem_append_left _ hi)),
        thenPart.resolve_distances _ (fst hn' hi)]
    · exact ⟨elsePart.resolve_distances _ (fst hn (List.mem_append_right _ hi)),
        test.resolve_distances _ (snd hn' hi)⟩
    · refine ⟨rfl, ?_⟩
      have hne := snd hn hi
      simp only [List.mem_append, not_or] at hne
      exact (thenPart.resolve_distances _ hne.2).trans (test.resolve_distances _ hne.1)
  | .stmt (.while test body) =>
    simp only [Site.ids, Site.references, Stmt.references, List.map_append] at hn
    simp only [Site.parts, List.mem_cons, List.not_mem_nil, or_false, Prod.mk.injEq] at hp
    rcases hp with ⟨rfl, rfl⟩ | ⟨rfl, rfl⟩
    · exact ⟨body.resolve_distances _ (fst hn hi), rfl⟩
    · exact ⟨rfl, test.resolve_distances _ (snd hn hi)⟩
  | .stmt (.function decl) =>
    simp only [Site.parts, List.mem_singleton, Prod.mk.injEq] at hp
    obtain ⟨rfl, rfl⟩ := hp
    exact ⟨rfl, by rw [Resolution.define_distances, Resolution.declare_distances]⟩
  | .stmt (.ret keyword (some e)) =>
    simp only [Site.parts, List.mem_singleton, Prod.mk.injEq] at hp
    obtain ⟨rfl, rfl⟩ := hp
    exact ⟨rfl, congrArg (·[id]?) (v.resolution.checkReturn_distances keyword true)⟩
  | .stmt (.class name decls) =>
    simp only [Site.parts, List.mem_singleton, Prod.mk.injEq] at hp
    obtain ⟨rfl, rfl⟩ := hp
    exact ⟨rfl, congrArg (·[id]?) (v.resolution.insideClass_distances name)⟩
  | .stmts (s :: rest) =>
    simp only [Site.ids, Site.references, Stmt.allReferences, List.map_append] at hn
    simp only [Site.parts, List.mem_cons, List.not_mem_nil, or_false, Prod.mk.injEq] at hp
    rcases hp with ⟨rfl, rfl⟩ | ⟨rfl, rfl⟩
    · exact ⟨Stmt.resolveAll_distances rest _ (fst hn hi), rfl⟩
    · exact ⟨rfl, s.resolve_distances _ (snd hn hi)⟩
  | .function (.mk _ params body) context =>
    simp only [Site.parts, List.mem_singleton, Prod.mk.injEq] at hp
    obtain ⟨rfl, rfl⟩ := hp
    exact ⟨rfl, congrArg (·[id]?) (v.resolution.insideFunction_distances context params)⟩
  | .methods (decl :: rest) =>
    simp only [Site.ids, Site.references, FunctionDecl.allReferences, List.map_append] at hn
    simp only [Site.parts, List.mem_cons, List.not_mem_nil, or_false, Prod.mk.injEq] at hp
    rcases hp with ⟨rfl, rfl⟩ | ⟨rfl, rfl⟩
    · exact ⟨FunctionDecl.resolveMethods_distances rest _ (fst hn hi), rfl⟩
    · exact ⟨rfl, decl.resolve_distances _ _ (snd hn hi)⟩

/-- The references of a part are references of the site. -/
theorem Site.part_references {site : Site} {v : Visit} {part : Site} {w : Visit}
    (hp : (part, w) ∈ site.parts v) : part.references.Sublist site.references := by
  match site with
  | .expr (.literal _) | .expr (.variable ..) | .expr (.this ..) | .stmt (.var _ none)
  | .stmt (.ret _ none) | .exprs [] | .stmts [] | .methods [] => simp [Site.parts] at hp
  | .expr (.grouping _) | .expr (.unary ..) | .expr (.get ..) | .stmt (.expression _)
  | .stmt (.print _) | .stmt (.var _ (some _)) | .stmt (.block _) | .stmt (.function _)
  | .stmt (.ret _ (some _)) | .stmt (.class ..) | .function (.mk ..) _ =>
    simp only [Site.parts, List.mem_singleton, Prod.mk.injEq] at hp
    obtain ⟨rfl, rfl⟩ := hp
    exact List.Sublist.refl _
  | .expr (.assign ..) =>
    simp only [Site.parts, List.mem_singleton, Prod.mk.injEq] at hp
    obtain ⟨rfl, rfl⟩ := hp
    exact List.sublist_cons_self _ _
  | .expr (.binary ..) | .expr (.logical ..) | .expr (.call ..) | .exprs (_ :: _)
  | .stmt (.cond _ _ none) | .stmt (.while ..) | .stmts (_ :: _) | .methods (_ :: _) =>
    simp only [Site.parts, List.mem_cons, List.not_mem_nil, or_false, Prod.mk.injEq] at hp
    rcases hp with ⟨rfl, rfl⟩ | ⟨rfl, rfl⟩
    · exact List.sublist_append_left _ _
    · exact List.sublist_append_right _ _
  | .expr (.set ..) =>
    simp only [Site.parts, List.mem_cons, List.not_mem_nil, or_false, Prod.mk.injEq] at hp
    rcases hp with ⟨rfl, rfl⟩ | ⟨rfl, rfl⟩
    · exact List.sublist_append_right _ _
    · exact List.sublist_append_left _ _
  | .stmt (.cond _ _ (some _)) =>
    simp only [Site.parts, List.mem_cons, List.not_mem_nil, or_false, Prod.mk.injEq] at hp
    rcases hp with ⟨rfl, rfl⟩ | ⟨rfl, rfl⟩ | ⟨rfl, rfl⟩
    · exact (List.sublist_append_left _ _).trans (List.sublist_append_left _ _)
    · exact (List.sublist_append_right _ _).trans (List.sublist_append_left _ _)
    · exact List.sublist_append_right _ _

section

variable {program : List Stmt} {distances : Std.HashMap NodeId Nat} {site : Site} {v : Visit}

theorem Visited.references (h : Visited program distances site v) :
    site.references.Sublist (Stmt.allReferences program) := by
  induction h with
  | program => exact List.Sublist.refl _
  | part _ hp ih => exact (Site.part_references hp).trans ih

theorem Visited.ids (h : Visited program distances site v) :
    site.ids.Sublist (Site.stmts program).ids := h.references.map Reference.id

/-- What is recorded at a site is what is recorded in the end. -/
theorem Visited.recorded_at (hn : (Site.stmts program).ids.Nodup)
    (h : Visited program distances site v) {id : NodeId} (hi : id ∈ site.ids) :
    (resolve program distances).distances[id]? = (site.resolve v.resolution).distances[id]? ∧
      v.resolution.distances[id]? = distances[id]? := by
  induction h with
  | program => exact ⟨rfl, rfl⟩
  | part hv hp ih =>
    obtain ⟨h₁, h₂⟩ := ih (((Site.part_references hp).map Reference.id).subset hi)
    obtain ⟨h₃, h₄⟩ := Site.part_distances (hn.sublist hv.ids) hp hi
    exact ⟨h₁.trans h₃, h₄.trans h₂⟩

/-- An expression that refers to a name by its own number. -/
def Expr.refersTo : Expr → NodeId → Token → Prop
  | .variable id name, id', name' | .assign id name _, id', name' | .this id name, id', name' =>
    id = id' ∧ name = name'
  | _, _, _ => False

/-- For a reference the distance is recorded that its visit gives, or none if that gives none. -/
theorem Visited.recorded (hn : (Site.stmts program).ids.Nodup)
    (hf : ∀ id ∈ (Site.stmts program).ids, distances[id]? = none)
    (hp : Stmt.AllProper program) (hc : (resolve program distances).Clean) {e : Expr}
    (h : Visited program distances (.expr e) v) {id : NodeId} {name : Token}
    (he : e.refersTo id name) :
    (resolve program distances).distances[id]? =
      Resolution.distance? v.scopes name.lexeme := by
  have hi : id ∈ (Site.expr e).ids := by
    cases e <;> simp only [Expr.refersTo] at he <;>
      simp [Site.ids, Site.references, Expr.references, he]
  obtain ⟨h₁, h₂⟩ := h.recorded_at hn hi
  have hnone := h₂.trans (hf id (h.ids.subset hi))
  rw [h₁]
  have hclean := (h.fine hp hc).clean
  cases e with
  | «variable» id' name' =>
    obtain ⟨rfl, rfl⟩ := he
    rw [Site.resolve, Expr.resolve, Resolution.record_distances_self]
    split <;> simp [hnone, Resolution.report, Visit.scopes]
  | assign id' name' e =>
    obtain ⟨rfl, rfl⟩ := he
    have hne : id' ∉ (Site.expr e).ids := by
      have := hn.sublist h.ids
      simp only [Site.ids, Site.references, Expr.references, List.map_cons, List.nodup_cons] at this
      exact this.1
    rw [Site.resolve, Expr.resolve, Resolution.record_distances_self, e.resolve_scopes,
      e.resolve_distances _ hne, hnone, Option.or_none]
    rfl
  | this id' keyword =>
    obtain ⟨rfl, rfl⟩ := he
    rw [Site.resolve, Expr.resolve] at hclean ⊢
    split at hclean
    next hin =>
      rw [if_pos hin, Resolution.record_distances_self, hnone, Option.or_none]; rfl
    next => exact absurd hclean (Resolution.not_clean_report _ _ _)
  | literal | grouping | unary | binary | logical | call | get | set => exact he.elim

end

end Lox
