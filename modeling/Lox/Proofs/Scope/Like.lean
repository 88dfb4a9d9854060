/-
Resolving what is alike. Programs that are alike get the same distances for the
nodes that are, and the same errors (`Stmt.Like.resolveAll`). A statement leaves
the function and the class around it as they were, so at its top level a program
is resolved as if nothing stood in front of it but what that has recorded
(`resolve_append`).
-/
import Lox.Proofs.Scope.Context
import Lox.Proofs.Tree.Like

namespace Lox

/-! ## Programs that are alike -/

/-- Distances by the numbers of nodes. -/
abbrev Distances := Std.HashMap NodeId Nat

/-- The same error, at a token that is alike. -/
structure ResolveError.Like (L : Likeness) (e e' : ResolveError) : Prop where
  token : e.token.Like L e'.token
  fault : e'.fault = e.fault

/-- The resolver knows the same and has reported the same, and what it has recorded is related. -/
inductive Resolution.Like (L : Likeness) (D : Distances → Distances → Prop) :
    Resolution → Resolution → Prop
  | intro {scopes around inClass distances distances' errors errors' failed} :
    D distances distances' →
    List.Forall₂ (ResolveError.Like L) (Array.toList errors) (Array.toList errors') →
    Like L D ⟨scopes, around, inClass, distances, errors, failed⟩
      ⟨scopes, around, inClass, distances', errors', failed⟩

/-- What is recorded for nodes that are alike keeps distances related. -/
def Likeness.Records (L : Likeness) (D : Distances → Distances → Prop) : Prop :=
  ∀ {d d' id id'} (n : Nat), D d d' → L.node id id' → D (d.insert id n) (d'.insert id' n)

/-- Nodes that are alike only to themselves have the same distances. -/
theorem Likeness.records_eq {L : Likeness} (hL : ∀ {id id'}, L.node id id' → id' = id) :
    L.Records Eq := by
  rintro d _ id id' n rfl hid
  rw [hL hid]

namespace Resolution.Like

variable {r r' : Resolution} {L : Likeness} {D : Distances → Distances → Prop}
variable {name name' : Token}

theorem report (h : r.Like L D r') {token token' : Token} (ht : token.Like L token')
    (fault : ResolveFault) : (r.report token fault).Like L D (r'.report token' fault) := by
  cases h with
  | intro hd he =>
    refine .intro hd ?_
    rw [Array.toList_push, Array.toList_push]
    exact List.rel_append he (.cons ⟨ht, rfl⟩ .nil)

theorem push (h : r.Like L D r') (scope : Scope) : (r.push scope).Like L D (r'.push scope) := by
  cases h with
  | intro hd he => exact .intro hd he

theorem pop (h : r.Like L D r') : r.pop.Like L D r'.pop := by
  cases h with
  | intro hd he => exact .intro hd he

theorem inFunction (h : r.Like L D r') (context : FunctionContext) :
    ({ r with function := context } : Resolution).Like L D { r' with function := context } := by
  cases h with
  | intro hd he => exact .intro hd he

theorem inClass (h : r.Like L D r') (b : Bool) :
    ({ r with inClass := b } : Resolution).Like L D { r' with inClass := b } := by
  cases h with
  | intro hd he => exact .intro hd he

theorem context (h : r.Like L D r') : r'.function = r.function ∧ r'.inClass = r.inClass := by
  cases h with
  | intro => exact ⟨rfl, rfl⟩

theorem distances (h : r.Like L D r') : D r.distances r'.distances := by
  cases h with
  | intro hd => exact hd

theorem errors (h : r.Like L D r') :
    List.Forall₂ (ResolveError.Like L) r.errors.toList r'.errors.toList := by
  cases h with
  | intro _ he => exact he

theorem failed (h : r.Like L D r') : r'.failed = r.failed := by
  cases h with
  | intro => rfl

theorem clean (h : r.Like L D r') (hc : r.Clean) : r'.Clean := by
  have he := h.errors
  rw [show r.errors = #[] from hc] at he
  exact Array.toList_eq_nil_iff.1 (List.forall₂_nil_left_iff.1 he)

theorem declare (h : r.Like L D r') (hn : name.Like L name') :
    (r.declare name).Like L D (r'.declare name') := by
  cases h with
  | @intro scopes _ _ _ _ _ _ _ hd he =>
    cases scopes with
    | nil => exact .intro hd he
    | cons scope outer =>
      simp only [Resolution.declare, hn.lexeme]
      split
      · exact report (.intro hd he) hn _
      · exact .intro hd he

theorem define (h : r.Like L D r') (hn : name.Like L name') :
    (r.define name).Like L D (r'.define name') := by
  cases h with
  | @intro scopes _ _ _ _ _ _ _ hd he =>
    cases scopes with
    | nil => exact .intro hd he
    | cons scope outer =>
      simp only [Resolution.define, hn.lexeme]
      exact .intro hd he

theorem record (hL : L.Records D) (h : r.Like L D r') {id id' : NodeId} (hid : L.node id id')
    (hn : name.Like L name') : (r.record id name).Like L D (r'.record id' name') := by
  cases h with
  | intro hd he =>
    simp only [Resolution.record, hn.lexeme]
    split
    · exact .intro (hL _ hd hid) he
    · exact .intro hd he

theorem isPending (h : r.Like L D r') (hn : name.Like L name') :
    r'.isPending name'.lexeme = r.isPending name.lexeme := by
  cases h with
  | intro => rw [Resolution.isPending, Resolution.isPending, hn.lexeme]

theorem reportIf (h : r.Like L D r') (p : Prop) [Decidable p] {token token' : Token}
    (ht : token.Like L token') (fault : ResolveFault) :
    (if p then r.report token fault else r).Like L D
      (if p then r'.report token' fault else r') := by
  split
  · exact h.report ht fault
  · exact h

theorem checkReturn (h : r.Like L D r') {keyword keyword' : Token} (hk : keyword.Like L keyword')
    (hasValue : Bool) :
    (r.checkReturn keyword hasValue).Like L D (r'.checkReturn keyword' hasValue) := by
  have hfirst := h.reportIf (r.function = .none) hk .returnAtTopLevel
  have hlast := hfirst.reportIf ((hasValue && (if r.function = .none then
    r.report keyword .returnAtTopLevel else r).function = .initializer) = true) hk
    .valueFromInitializer
  have hcontext := hfirst.context.1
  unfold Resolution.checkReturn
  dsimp only
  rw [h.context.1, hcontext]
  exact hlast

theorem addParams (h : r.Like L D r') {params params' : List Token}
    (hp : List.Forall₂ (Token.Like L) params params') :
    (r.addParams params).Like L D (r'.addParams params') := by
  induction hp generalizing r r' with
  | nil => exact h
  | cons hn _ ih => exact ih ((h.declare hn).define hn)

end Resolution.Like

variable {L : Likeness} {D : Distances → Distances → Prop}

mutual

theorem Expr.Like.resolve (hL : L.Records D) : ∀ {e e' : Expr}
    {r r' : Resolution}, e.Like L e' → r.Like L D r' → (e.resolve r).Like L D (e'.resolve r')
  | .literal _, _, _, _, .literal _, hr => hr
  | .grouping _, _, _, _, .grouping he, hr => he.resolve hL hr
  | .unary .., _, _, _, .unary _ he, hr => he.resolve hL hr
  | .binary .., _, _, _, .binary hl _ hright, hr => hright.resolve hL (hl.resolve hL hr)
  | .logical .., _, _, _, .logical hl _ hright, hr => hright.resolve hL (hl.resolve hL hr)
  | .variable .., _, r, r', .variable hid hn, hr => by
    rw [Expr.resolve, Expr.resolve, hr.isPending hn]
    exact .record hL (hr.reportIf _ hn _) hid hn
  | .assign .., _, _, _, .assign hid hn he, hr => .record hL (he.resolve hL hr) hid hn
  | .call .., _, _, _, .call hc _ ha, hr => Expr.Like.resolveAll hL ha (hc.resolve hL hr)
  | .get .., _, _, _, .get ho _, hr => ho.resolve hL hr
  | .set .., _, _, _, .set ho _ he, hr => ho.resolve hL (he.resolve hL hr)
  | .this .., _, r, r', .this hid hk, hr => by
    rw [Expr.resolve, Expr.resolve, hr.context.2]
    split
    · exact .record hL hr hid hk
    · exact hr.report hk _

theorem Expr.Like.resolveAll (hL : L.Records D) : ∀ {es es' : List Expr}
    {r r' : Resolution}, List.Forall₂ (Expr.Like L) es es' → r.Like L D r' →
    (Expr.resolveAll es r).Like L D (Expr.resolveAll es' r')
  | [], _, _, _, .nil, hr => hr
  | _ :: _, _, _, _, .cons he hes, hr => by
    rw [Expr.resolveAll, Expr.resolveAll]
    exact Expr.Like.resolveAll hL hes (he.resolve hL hr)

end

mutual

theorem Stmt.Like.resolve (hL : L.Records D) : ∀ {s s' : Stmt}
    {r r' : Resolution}, s.Like L s' → r.Like L D r' → (s.resolve r).Like L D (s'.resolve r')
  | .expression _, _, _, _, .expression he, hr => he.resolve hL hr
  | .print _, _, _, _, .print he, hr => he.resolve hL hr
  | .var _ none, _, _, _, .var hn .none, hr => (hr.declare hn).define hn
  | .var _ (some _), _, _, _, .var hn (.some he), hr => (he.resolve hL (hr.declare hn)).define hn
  | .block _, _, _, _, .block hb, hr => (Stmt.Like.resolveAll hL hb (hr.push .empty)).pop
  | .cond _ _ none, _, _, _, .cond ht h .none, hr => h.resolve hL (ht.resolve hL hr)
  | .cond _ _ (some _), _, _, _, .cond ht h (.some he), hr =>
    he.resolve hL (h.resolve hL (ht.resolve hL hr))
  | .while .., _, _, _, .while ht hb, hr => hb.resolve hL (ht.resolve hL hr)
  | .function _, _, _, _, .function hd, hr =>
    hd.resolve hL .function ((hr.declare hd.name).define hd.name)
  | .ret _ none, _, _, _, .ret hk .none, hr => hr.checkReturn hk false
  | .ret _ (some _), _, _, _, .ret hk (.some he), hr => he.resolve hL (hr.checkReturn hk true)
  | .class .., _, r, r', .class hn hm, hr => by
    rw [Stmt.resolve, Stmt.resolve, hr.context.2]
    exact ((FunctionDecl.Like.resolveMethods hL hm
      ((((hr.inClass true).declare hn).define hn).push classScope)).pop).inClass r.inClass

theorem Stmt.Like.resolveAll (hL : L.Records D) : ∀ {ss ss' : List Stmt}
    {r r' : Resolution}, List.Forall₂ (Stmt.Like L) ss ss' → r.Like L D r' →
    (Stmt.resolveAll ss r).Like L D (Stmt.resolveAll ss' r')
  | [], _, _, _, .nil, hr => hr
  | _ :: _, _, _, _, .cons hs hss, hr => by
    rw [Stmt.resolveAll, Stmt.resolveAll]
    exact Stmt.Like.resolveAll hL hss (hs.resolve hL hr)

theorem FunctionDecl.Like.resolve (hL : L.Records D) :
    ∀ {d d' : FunctionDecl} {r r' : Resolution}, d.Like L d' → ∀ context : FunctionContext,
    r.Like L D r' → (d.resolve context r).Like L D (d'.resolve context r')
  | .mk .., _, r, r', .mk _ hp hb, context, hr => by
    rw [FunctionDecl.resolve, FunctionDecl.resolve, hr.context.1]
    exact ((Stmt.Like.resolveAll hL hb
      (((hr.inFunction context).push .empty).addParams hp)).pop).inFunction r.function

theorem FunctionDecl.Like.resolveMethods (hL : L.Records D) :
    ∀ {ds ds' : List FunctionDecl} {r r' : Resolution},
    List.Forall₂ (FunctionDecl.Like L) ds ds' → r.Like L D r' →
    (FunctionDecl.resolveMethods ds r).Like L D (FunctionDecl.resolveMethods ds' r')
  | [], _, _, _, .nil, hr => hr
  | _ :: _, _, _, _, .cons hd hds, hr => by
    rw [FunctionDecl.resolveMethods, FunctionDecl.resolveMethods, hd.isInit]
    exact FunctionDecl.Like.resolveMethods hL hds (hd.resolve hL _ hr)

end

/-! ## Programs one behind the other -/

theorem Stmt.resolveAll_append (first second : List Stmt) (r : Resolution) :
    Stmt.resolveAll (first ++ second) r = Stmt.resolveAll second (Stmt.resolveAll first r) := by
  induction first generalizing r with
  | nil => rfl
  | cons s rest ih => exact ih (s.resolve r)

/-- Behind an accepted program the resolver is where it was before it, but for what it has
recorded. -/
theorem resolve_start {program : List Stmt} {distances : Std.HashMap NodeId Nat}
    (hp : Stmt.AllProper program) (hc : (resolve program distances).Clean) :
    resolve program distances = .start (resolve program distances).distances := by
  have hscopes : (resolve program distances).scopes = [] :=
    (Stmt.resolveAll_scopes program _ hp).trans
      (List.forall₂_nil_left_iff.1 (grows_afterAll program []))
  have hcontext : (resolve program distances).context = (.none, false) :=
    Stmt.resolveAll_context program (.start distances)
  have herrors : (resolve program distances).errors = #[] := hc
  have hfailed : (resolve program distances).failed = false := resolve_failed.2 hc
  generalize resolve program distances = r at *
  obtain ⟨scopes, around, inClass, recorded, errors, failed⟩ := r
  cases hscopes
  cases hcontext
  cases herrors
  cases hfailed
  rfl

/-- What follows an accepted program is resolved with its distances, on whatever lines it stands. -/
theorem resolve_append (hL : ∀ {id id'}, L.node id id' → id' = id)
    {first second second' : List Stmt} {distances : Std.HashMap NodeId Nat} (hp : Stmt.AllProper first)
    (hc : (resolve first distances).Clean) (hs : List.Forall₂ (Stmt.Like L) second second') :
    (resolve second (resolve first distances).distances).Like L Eq
      (resolve (first ++ second') distances) := by
  have hstart : resolve (first ++ second') distances =
      resolve second' (resolve first distances).distances := by
    rw [resolve, Stmt.resolveAll_append]
    exact congrArg (Stmt.resolveAll second') (resolve_start hp hc)
  rw [hstart]
  exact Stmt.Like.resolveAll (Likeness.records_eq hL) hs (.intro rfl .nil)

end Lox
