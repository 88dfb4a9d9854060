/-
What a statement leaves of the state it is resolved in, whatever is wrong with it.
The scopes outside the innermost one, the function and the class around it are as
they were, and the innermost scope has advanced (`Restores`). What the walk over a
site records is one entry for each reference that it comes to and finds in a scope
(`Site.resolve_records`), and in a class it comes to a receiver with a scope that
has it (`Visit.Receives`).
-/
import Lox.Proofs.Scope.Context
import Lox.Proofs.Scope.Distance

namespace Lox

/-! ## Scopes -/

/-- A scope later on: no name of it is lost or pending once more, and it may have new ones. -/
def Advances (before after : Scope) : Prop :=
  ∀ name standing, before.get? name = some standing →
    after.get? name = some standing ∨ after.get? name = some .defined

theorem Advances.refl (scope : Scope) : Advances scope scope := fun _ _ h => .inl h

theorem Advances.trans {a b c : Scope} (h : Advances a b) (h' : Advances b c) : Advances a c := by
  intro name standing hn
  rcases h name standing hn with hb | hb
  · exact h' name standing hb
  · exact .inr ((h' name .defined hb).elim id id)

theorem Advances.contains {a b : Scope} (h : Advances a b) {name : String}
    (hn : a.contains name = true) : b.contains name = true := by
  obtain ⟨standing, hs⟩ := Bindings.contains_iff.1 hn
  rcases h name standing hs with hb | hb <;> exact Bindings.contains_of_get? hb

/-- A declaration that is complete is complete for good. -/
theorem advances_defined (scope : Scope) (name : String) :
    Advances scope (scope.set name .defined) := by
  intro other standing h
  rw [Bindings.get?_set]
  split
  · exact .inr rfl
  · exact .inl h

/-- A name is declared in a scope that does not have it. -/
theorem advances_declared {scope : Scope} {name : String} (h : scope.contains name = false) :
    Advances scope (scope.set name .declared) := by
  intro other standing ho
  rw [Bindings.get?_set, if_neg]
  · exact .inl ho
  · rintro rfl
    rw [Bindings.contains_of_get? ho] at h
    cases h

/-- The scopes behind a piece of a program are those in front of it, but that the innermost one may
have advanced. -/
inductive Restores : List Scope → List Scope → Prop
  | globals : Restores [] []
  | scope {before after outer} : Advances before after → Restores (before :: outer) (after :: outer)

namespace Restores

variable {a b c : List Scope}

theorem refl : ∀ scopes : List Scope, Restores scopes scopes
  | [] => .globals
  | first :: _ => .scope (.refl first)

theorem trans (h : Restores a b) (h' : Restores b c) : Restores a c := by
  cases h with
  | globals => exact h'
  | scope h =>
    cases h' with
    | scope h' => exact .scope (h.trans h')

theorem of_eq (h : b = a) : Restores a b := h ▸ .refl a

theorem length_eq (h : Restores a b) : b.length = a.length := by cases h <;> rfl

theorem tail_eq (h : Restores a b) : b.tail = a.tail := by cases h <;> rfl

theorem advances (h : Restores a b) {scope : Scope} (hs : a.head? = some scope) :
    ∃ scope', b.head? = some scope' ∧ Advances scope scope' := by
  cases h with
  | globals => cases hs
  | scope h =>
    cases hs
    exact ⟨_, rfl, h⟩

/-- Closing a scope that was opened restores the scopes exactly. -/
theorem tail_of_cons {scope : Scope} (h : Restores (scope :: a) b) : b.tail = a := h.tail_eq

/-- No name gets lost. -/
theorem exists_contains (h : Restores a b) {name : String}
    (hn : ∃ scope ∈ a, scope.contains name = true) :
    ∃ scope ∈ b, scope.contains name = true := by
  cases h with
  | globals => exact hn
  | scope h =>
    obtain ⟨scope, hs, hc⟩ := hn
    rcases List.mem_cons.1 hs with rfl | hs
    · exact ⟨_, List.mem_cons_self, h.contains hc⟩
    · exact ⟨scope, List.mem_cons_of_mem _ hs, hc⟩

end Restores

namespace Resolution

theorem restores_declare (r : Resolution) (name : Token) :
    Restores r.scopes (r.declare name).scopes := by
  unfold declare
  split
  next h => exact .refl _
  next scope outer h =>
    split
    next => exact .refl _
    next hc =>
      rw [h]
      exact .scope (advances_declared (Bool.eq_false_iff.2 hc))

theorem restores_define (r : Resolution) (name : Token) :
    Restores r.scopes (r.define name).scopes := by
  unfold define
  split
  next h => exact .refl _
  next scope outer h =>
    rw [h]
    exact .scope (advances_defined scope name.lexeme)

theorem restores_addParams (r : Resolution) (params : List Token) :
    Restores r.scopes (r.addParams params).scopes := by
  induction params generalizing r with
  | nil => exact .refl _
  | cons name rest ih =>
    exact ((r.restores_declare name).trans (restores_define _ name)).trans (ih _)

theorem restores_insideFunction (r : Resolution) (context : FunctionContext)
    (params : List Token) :
    Restores (.empty :: r.scopes) (r.insideFunction context params).scopes :=
  restores_addParams ({ r with function := context }.push .empty) params

/-- The name of a class is declared around it. -/
theorem restores_className (r : Resolution) (name : Token) :
    Restores r.scopes (({ r with inClass := true }.declare name).define name).scopes :=
  (restores_declare { r with inClass := true } name).trans (restores_define _ name)

end Resolution

mutual

theorem Stmt.resolve_restores : ∀ (s : Stmt) (r : Resolution),
    Restores r.scopes (s.resolve r).scopes
  | .expression e, r | .print e, r => .of_eq (e.resolve_scopes r)
  | .var name none, r => (r.restores_declare name).trans (Resolution.restores_define _ name)
  | .var name (some e), r =>
    ((r.restores_declare name).trans (.of_eq (e.resolve_scopes _))).trans
      (Resolution.restores_define _ name)
  | .block body, r => .of_eq (Stmt.resolveAll_restores body (r.push .empty)).tail_of_cons
  | .cond test thenPart none, r =>
    .trans (.of_eq (test.resolve_scopes r)) (thenPart.resolve_restores _)
  | .cond test thenPart (some elsePart), r =>
    .trans (.of_eq (test.resolve_scopes r))
      ((thenPart.resolve_restores _).trans (elsePart.resolve_restores _))
  | .while test body, r => .trans (.of_eq (test.resolve_scopes r)) (body.resolve_restores _)
  | .function decl, r =>
    ((r.restores_declare decl.name).trans (Resolution.restores_define _ decl.name)).trans
      (.of_eq (decl.resolve_restored .function _))
  | .ret keyword none, r => .of_eq (r.checkReturn_scopes keyword false)
  | .ret keyword (some e), r =>
    .of_eq ((e.resolve_scopes _).trans (r.checkReturn_scopes keyword true))
  | .class name decls, r => by
    have h := FunctionDecl.resolveMethods_restored decls (r.insideClass name)
    exact (r.restores_className name).trans (.of_eq (congrArg List.tail h))

theorem Stmt.resolveAll_restores : ∀ (ss : List Stmt) (r : Resolution),
    Restores r.scopes (Stmt.resolveAll ss r).scopes
  | [], _ => .refl _
  | s :: rest, r => (s.resolve_restores r).trans (Stmt.resolveAll_restores rest _)

/-- A function has a scope of its own. -/
theorem FunctionDecl.resolve_restored : ∀ (d : FunctionDecl) (context : FunctionContext)
    (r : Resolution), (d.resolve context r).scopes = r.scopes
  | .mk _ params body, context, r =>
    ((r.restores_insideFunction context params).trans
      (Stmt.resolveAll_restores body _)).tail_of_cons

theorem FunctionDecl.resolveMethods_restored : ∀ (ds : List FunctionDecl) (r : Resolution),
    (FunctionDecl.resolveMethods ds r).scopes = r.scopes
  | [], _ => rfl
  | d :: rest, r => by
    rw [FunctionDecl.resolveMethods, FunctionDecl.resolveMethods_restored rest,
      d.resolve_restored]

end

/-- The scopes around any site are restored. -/
theorem Site.resolve_restores (site : Site) (r : Resolution) :
    Restores r.scopes (site.resolve r).scopes := by
  cases site with
  | expr e => exact .of_eq (e.resolve_scopes r)
  | exprs es => exact .of_eq (Expr.resolveAll_scopes es r)
  | stmt s => exact s.resolve_restores r
  | stmts ss => exact Stmt.resolveAll_restores ss r
  | function decl context => exact .of_eq (decl.resolve_restored context r)
  | methods decls => exact .of_eq (FunctionDecl.resolveMethods_restored decls r)

/-! ## Sites in a site -/

namespace Site

/-- In this state the walk over a site comes to this site. -/
inductive Leads : Site → Visit → Site → Visit → Prop
  | here {site v} : Leads site v site v
  | inside {site v mid u part w} : (mid, u) ∈ site.parts v → Leads mid u part w →
    Leads site v part w

variable {site part : Site} {v w : Visit}

theorem leads_iff : site.Leads v part w ↔
    (part = site ∧ w = v) ∨ ∃ mid u, (mid, u) ∈ site.parts v ∧ mid.Leads u part w := by
  constructor
  · rintro (_ | ⟨hp, h⟩)
    · exact .inl ⟨rfl, rfl⟩
    · exact .inr ⟨_, _, hp, h⟩
  · rintro (⟨rfl, rfl⟩ | ⟨mid, u, hp, h⟩)
    · exact .here
    · exact .inside hp h

/-- What holds of a visit and is handed down to the sites directly inside holds of all visits that
the walk comes to. -/
theorem Leads.invariant {P : Visit → Prop}
    (hstep : ∀ {site v part w}, (part, w) ∈ Site.parts site v → P v → P w)
    (h : site.Leads v part w) (hv : P v) : P w := by
  induction h with
  | here => exact hv
  | inside hp _ ih => exact ih (hstep hp hv)

/-- The size of the piece of a program that a site is. -/
noncomputable def size : Site → Nat
  | expr e => sizeOf e
  | exprs es => sizeOf es
  | stmt s => sizeOf s
  | stmts ss => sizeOf ss
  | function decl _ => sizeOf decl
  | methods decls => sizeOf decls

theorem size_part (h : (part, w) ∈ site.parts v) : part.size < site.size := by
  have hall : ∀ p ∈ site.parts v, p.1.size < site.size := by
    cases site with
    | expr e => cases e <;> simp [parts, size] <;> omega
    | exprs es => cases es <;> simp [parts, size]; omega
    | stmt s =>
      cases s with
      | var name init => cases init <;> simp [parts, size]; omega
      | cond test thenPart elsePart => cases elsePart <;> simp [parts, size] <;> omega
      | ret keyword value => cases value <;> simp [parts, size]; omega
      | _ => simp [parts, size] <;> omega
    | stmts ss => cases ss <;> simp [parts, size]; omega
    | function decl context =>
      obtain ⟨name, params, body⟩ := decl
      simp only [parts, List.mem_singleton, forall_eq, size, FunctionDecl.mk.sizeOf_spec]
      omega
    | methods decls => cases decls <;> simp [parts, size]; omega
  exact hall _ h

/-- What holds of a site if it holds of the sites directly in it holds of all sites. -/
theorem of_parts {P : Site → Prop}
    (h : ∀ site : Site, (∀ v part w, (part, w) ∈ site.parts v → P part) → P site) (site : Site) :
    P site := by
  induction hn : site.size using Nat.strongRecOn generalizing site with
  | ind k ih =>
    subst hn
    exact h site fun v part w hp => ih part.size (size_part hp) part rfl

end Site

/-! ## What is recorded -/

/-- An entry of the table of distances. -/
structure Recording where
  id : NodeId
  distance : Nat

namespace Recording

/-- A table with these entries, a later one over an earlier one of its number. -/
def enterAll (entries : List Recording) (table : Std.HashMap NodeId Nat) :
    Std.HashMap NodeId Nat :=
  entries.foldl (fun table x => table.insert x.id x.distance) table

theorem enterAll_append (xs ys : List Recording) (table : Std.HashMap NodeId Nat) :
    enterAll (xs ++ ys) table = enterAll ys (enterAll xs table) :=
  List.foldl_append

end Recording

/-- What is recorded for a name, if any scope has it. -/
def Visit.recording? (v : Visit) (id : NodeId) (name : Token) : Option Recording :=
  (Resolution.distance? v.scopes name.lexeme).map (.mk id)

/-- What the walk records for a site itself: an entry for a reference to a name that some scope has,
and for a receiver only in a class. -/
def Site.recording? : Site → Visit → Option Recording
  | .expr (.variable id name), v | .expr (.assign id name _), v => v.recording? id name
  | .expr (.this id keyword), v => if v.resolution.inClass then v.recording? id keyword else none
  | _, _ => none

/-- A distance is the place of one of the open scopes. -/
theorem Visit.distance_lt {v : Visit} {name : String} {d : Nat}
    (h : Resolution.distance? v.scopes name = some d) : d < v.scopes.length :=
  (List.findIdx?_eq_some_iff_getElem.1 h).1

theorem Site.recording?_lt {site : Site} {v : Visit} {x : Recording}
    (h : site.recording? v = some x) : x.distance < v.scopes.length := by
  have hlt {id : NodeId} {name : Token} (h : v.recording? id name = some x) :
      x.distance < v.scopes.length := by
    obtain ⟨d, hd, rfl⟩ := Option.map_eq_some_iff.1 h
    exact Visit.distance_lt hd
  unfold recording? at h
  split at h
  · exact hlt h
  · exact hlt h
  · split at h
    · exact hlt h
    · cases h
  · cases h

theorem Resolution.record_enters (r : Resolution) (closing : List Scope) (id : NodeId)
    (name : Token) : (r.record id name).distances =
      Recording.enterAll ((Visit.mk r closing).recording? id name).toList r.distances := by
  unfold record Visit.recording? Visit.scopes
  split
  next d h => rw [h]; rfl
  next h => rw [h]; rfl

/-- Sites are walked over one after the other, each with the table that the one before it has
left. -/
inductive Passes : Std.HashMap NodeId Nat → List (Site × Visit) → Std.HashMap NodeId Nat → Prop
  | nil {table} : Passes table [] table
  | cons {table part w rest table'} : w.resolution.distances = table →
    Passes (part.resolve w.resolution).distances rest table' →
    Passes table ((part, w) :: rest) table'

/-- The walk over a site is that over the sites directly inside, and then what is recorded for the
site itself. -/
theorem Site.passes_parts (site : Site) (v : Visit) : ∃ table,
    Passes v.resolution.distances (site.parts v) table ∧
      (site.resolve v.resolution).distances =
        Recording.enterAll (site.recording? v).toList table := by
  have one {part : Site} {w : Visit} (h : w.resolution.distances = v.resolution.distances) :
      Passes v.resolution.distances [(part, w)] (part.resolve w.resolution).distances :=
    .cons h .nil
  have two {part part' : Site} :
      Passes v.resolution.distances [(part, v), (part', v.after part)]
        (part'.resolve (v.after part).resolution).distances :=
    .cons rfl (.cons rfl .nil)
  cases site with
  | expr e =>
    cases e with
    | literal => exact ⟨_, .nil, rfl⟩
    | grouping | unary | get => exact ⟨_, one rfl, rfl⟩
    | binary | logical | call | set => exact ⟨_, two, rfl⟩
    | «variable» id name =>
      refine ⟨_, .nil, ?_⟩
      rw [resolve, Expr.resolve, Resolution.record_enters _ v.closing]
      split <;> rfl
    | assign id name e =>
      refine ⟨_, one rfl, ?_⟩
      rw [resolve, Expr.resolve, Resolution.record_enters _ v.closing]
      simp only [recording?, Visit.recording?, Visit.scopes, e.resolve_scopes, resolve]
    | this id keyword =>
      refine ⟨_, .nil, ?_⟩
      rw [resolve, Expr.resolve, recording?]
      split
      · exact Resolution.record_enters v.resolution v.closing id keyword
      · rfl
  | exprs es | stmts es | methods es =>
    cases es with
    | nil => exact ⟨_, .nil, rfl⟩
    | cons => exact ⟨_, two, rfl⟩
  | stmt s =>
    cases s with
    | expression | print => exact ⟨_, one rfl, rfl⟩
    | var name init =>
      cases init with
      | none => exact ⟨_, .nil, by simp [resolve, Stmt.resolve, recording?, Recording.enterAll]⟩
      | some e =>
        refine ⟨_, one (Resolution.declare_distances _ name), ?_⟩
        simp [resolve, Stmt.resolve, recording?, Recording.enterAll]
    | block => exact ⟨_, one rfl, rfl⟩
    | cond test thenPart elsePart =>
      cases elsePart with
      | none => exact ⟨_, two, rfl⟩
      | some => exact ⟨_, .cons rfl (.cons rfl (.cons rfl .nil)), rfl⟩
    | «while» => exact ⟨_, two, rfl⟩
    | function decl => exact ⟨_, one (by simp), rfl⟩
    | ret keyword value =>
      cases value with
      | none =>
        exact ⟨_, .nil, by simp [resolve, Stmt.resolve, recording?, Recording.enterAll]⟩
      | some => exact ⟨_, one (by simp), rfl⟩
    | «class» name => exact ⟨_, one (Resolution.insideClass_distances _ name), rfl⟩
  | function decl context =>
    obtain ⟨name, params, body⟩ := decl
    exact ⟨_, one (Resolution.insideFunction_distances _ context params), rfl⟩

/-- The walk over a site records one entry after the other, and those are the entries of the
references that it comes to. -/
theorem Site.resolve_records (site : Site) (v : Visit) : ∃ entries : List Recording,
    (site.resolve v.resolution).distances =
        Recording.enterAll entries v.resolution.distances ∧
      ∀ x, x ∈ entries ↔ ∃ part w, site.Leads v part w ∧ part.recording? w = some x := by
  induction site using Site.of_parts generalizing v with
  | h site ih =>
    have hparts : ∀ {table ps table'}, Passes table ps table' →
        (∀ p ∈ ps, p ∈ site.parts v) → ∃ entries : List Recording,
          table' = Recording.enterAll entries table ∧ ∀ x, x ∈ entries ↔
            ∃ p ∈ ps, ∃ part w, p.1.Leads p.2 part w ∧ part.recording? w = some x := by
      intro table ps table' h hps
      induction h with
      | nil => exact ⟨[], rfl, by simp⟩
      | @cons table part w rest table' htable _ ihrest =>
        rw [List.forall_mem_cons] at hps
        obtain ⟨xs, hxs, hmem⟩ := ih v part w hps.1 w
        obtain ⟨ys, hys, hmem'⟩ := ihrest hps.2
        refine ⟨xs ++ ys, ?_, fun x => ?_⟩
        · rw [hys, hxs, htable, Recording.enterAll_append]
        · rw [List.mem_append, hmem, hmem', List.exists_mem_cons_iff]
    obtain ⟨table, hpasses, hown⟩ := site.passes_parts v
    obtain ⟨entries, htable, hmem⟩ := hparts hpasses fun p hp => hp
    refine ⟨entries ++ (site.recording? v).toList, ?_, fun x => ?_⟩
    · rw [hown, htable, Recording.enterAll_append]
    · rw [List.mem_append, hmem, Option.mem_toList]
      constructor
      · rintro (⟨p, hp, part, w, hl, hx⟩ | hx)
        · exact ⟨part, w, .inside hp hl, hx⟩
        · exact ⟨site, v, .here, hx⟩
      · rintro ⟨part, w, hl, hx⟩
        rcases leads_iff.1 hl with ⟨rfl, rfl⟩ | ⟨mid, u, hp, hl⟩
        · exact .inr hx
        · exact .inl ⟨(mid, u), hp, part, w, hl, hx⟩

/-! ## The receiver -/

namespace Resolution

/-- In a class some scope has the receiver. -/
def Receives (r : Resolution) : Prop :=
  r.inClass = true → ∃ scope ∈ r.scopes, scope.contains receiverName = true

variable {r r' : Resolution}

theorem Receives.restores (h : r.Receives) (hs : Restores r.scopes r'.scopes)
    (hc : r'.context = r.context) : r'.Receives := by
  intro hin
  have hclass : r'.inClass = r.inClass := congrArg Prod.snd hc
  exact hs.exists_contains (h (hclass ▸ hin))

theorem Receives.push (h : r.Receives) (scope : Scope) : (r.push scope).Receives := by
  intro hin
  obtain ⟨outer, ho, hc⟩ := h hin
  exact ⟨outer, List.mem_cons_of_mem _ ho, hc⟩

theorem Receives.declare (h : r.Receives) (name : Token) : (r.declare name).Receives :=
  h.restores (r.restores_declare name) (r.context_declare name)

theorem Receives.define (h : r.Receives) (name : Token) : (r.define name).Receives :=
  h.restores (r.restores_define name) (r.context_define name)

theorem Receives.checkReturn (h : r.Receives) (keyword : Token) (hasValue : Bool) :
    (r.checkReturn keyword hasValue).Receives :=
  h.restores (.of_eq (r.checkReturn_scopes keyword hasValue))
    (r.context_checkReturn keyword hasValue)

theorem Receives.insideFunction (h : r.Receives) (context : FunctionContext)
    (params : List Token) : (r.insideFunction context params).Receives := by
  have hin : Receives { r with function := context } := h
  exact (hin.push .empty).restores (restores_addParams _ params) (context_addParams _ params)

/-- The scope of a class has the receiver. -/
theorem receives_insideClass (r : Resolution) (name : Token) : (r.insideClass name).Receives :=
  fun _ => ⟨classScope, List.mem_cons_self, by decide⟩

theorem Receives.resolve (h : r.Receives) (site : Site) : (site.resolve r).Receives :=
  h.restores (site.resolve_restores r) (site.resolve_context r)

theorem receives_start (distances : Std.HashMap NodeId Nat) : (start distances).Receives := nofun

end Resolution

theorem Site.receives_part {site part : Site} {v w : Visit} (hp : (part, w) ∈ site.parts v)
    (h : v.resolution.Receives) : w.resolution.Receives := by
  have hall : ∀ p ∈ site.parts v, p.2.resolution.Receives := by
    have hafter (part : Site) : (v.after part).resolution.Receives := h.resolve part
    cases site with
    | expr e => cases e <;> simp [parts, h, hafter]
    | exprs es => cases es <;> simp [parts, h, hafter]
    | stmt s =>
      cases s with
      | var name init => cases init <;> simp [parts, h.declare name]
      | block body => simp [parts, Visit.opening, h.push]
      | cond test thenPart elsePart =>
        have hlast : ((v.after (.expr test)).after (.stmt thenPart)).resolution.Receives :=
          (hafter (.expr test)).resolve (.stmt thenPart)
        cases elsePart <;> simp [parts, h, hafter, hlast]
      | function decl => simp [parts, (h.declare decl.name).define]
      | ret keyword value => cases value <;> simp [parts, h.checkReturn]
      | «class» name decls => simp [parts, Visit.opening, Resolution.receives_insideClass]
      | _ => simp [parts, h, hafter]
    | stmts ss => cases ss <;> simp [parts, h, hafter]
    | function decl context =>
      obtain ⟨name, params, body⟩ := decl
      simp [parts, Visit.opening, h.insideFunction]
    | methods decls => cases decls <;> simp [parts, h, hafter]
  exact hall _ hp

theorem Visited.receives {program : List Stmt} {distances : Std.HashMap NodeId Nat} {site : Site}
    {v : Visit} (h : Visited program distances site v) : v.resolution.Receives := by
  induction h with
  | program => exact Resolution.receives_start distances
  | part _ hp ih => exact Site.receives_part hp ih

theorem Resolution.Receives.distance? {v : Visit} (h : v.resolution.Receives)
    (hin : v.resolution.inClass = true) :
    ∃ d, Resolution.distance? v.scopes receiverName = some d := by
  rw [← Option.isSome_iff_exists, Resolution.distance?, List.findIdx?_isSome, List.any_eq_true]
  exact h hin

/-- A statement restores the state that it is resolved in, whatever is wrong with it: the innermost
scope may have more names, and more of them defined, and the rest is as it was. Each distance that is
recorded on the way is that of a reference that the walk comes to, and of a scope that is open there;
and if the state is one that the walk over a program comes to, each receiver in a class finds a scope
that has it. -/
theorem Stmt.surroundings_restored (s : Stmt) (v : Visit) :
    let before := v.resolution
    let after := s.resolve before
    after.scopes.length = before.scopes.length ∧ after.scopes.tail = before.scopes.tail ∧
    (∀ scope, before.scopes.head? = some scope →
      ∃ scope', after.scopes.head? = some scope' ∧ Advances scope scope') ∧
    after.function = before.function ∧ after.inClass = before.inClass ∧
    (∃ entries : List Recording,
      after.distances = Recording.enterAll entries before.distances ∧
      (∀ x, x ∈ entries ↔
        ∃ part w, (Site.stmt s).Leads v part w ∧ part.recording? w = some x) ∧
      ∀ part w x, (Site.stmt s).Leads v part w → part.recording? w = some x →
        x.distance < w.scopes.length) ∧
    ∀ program distances site, Visited program distances site v →
      ∀ id keyword w, (Site.stmt s).Leads v (.expr (.this id keyword)) w →
        w.resolution.inClass = true →
          ∃ d, Resolution.distance? w.scopes receiverName = some d ∧ (keyword.lexeme = receiverName →
            (Site.expr (.this id keyword)).recording? w = some ⟨id, d⟩) := by
  intro before after
  have hscopes : Restores before.scopes after.scopes := s.resolve_restores before
  have hcontext : after.context = before.context := s.resolve_context before
  obtain ⟨entries, hentries, hmem⟩ := (Site.stmt s).resolve_records v
  refine ⟨hscopes.length_eq, hscopes.tail_eq, fun _ => hscopes.advances, congrArg Prod.fst hcontext,
    congrArg Prod.snd hcontext, ⟨entries, hentries, hmem, fun _ _ _ _ => Site.recording?_lt⟩, ?_⟩
  intro program distances site hv id keyword w hw hin
  have hreceives : w.resolution.Receives := hw.invariant Site.receives_part hv.receives
  obtain ⟨d, hd⟩ := hreceives.distance? hin
  refine ⟨d, hd, fun hname => ?_⟩
  rw [Site.recording?, if_pos hin, Visit.recording?, hname, hd]
  rfl

/-- `m(p, p) { this; }` -/
def methodWithTwins : FunctionDecl :=
  .mk (.identifier "m" 1) [.identifier "p" 1, .identifier "p" 1]
    [.expression (.this 0 ⟨.symbol .kwThis, "this", 1⟩)]

/-- `class A { m(p, p) { this; } }` -/
def classWithTwins : Stmt := .class (.identifier "A" 1) [methodWithTwins]

/-- The class, behind `{ var A;` -/
def atClass : Visit :=
  ((Visit.mk (.start ∅) []).opening ((Resolution.start ∅).push .empty)
    (.stmts [.var (.identifier "A" 1) none, classWithTwins])).after
      (.stmt (.var (.identifier "A" 1) none))

/-- The receiver in the method of the class. -/
def atReceiver : Visit :=
  let inClass := atClass.resolution.insideClass (.identifier "A" 1)
  (atClass.opening inClass (.methods [methodWithTwins])).opening
    (inClass.insideFunction .method methodWithTwins.params) (.stmts methodWithTwins.body)

/-- The class has the name of a variable and its method has two parameters of one name. Nevertheless
the scope around the class is restored, and the receiver in the method is found. -/
theorem Stmt.surroundings_restored_classWithTwins :
    let program := [Stmt.block [.var (.identifier "A" 1) none, classWithTwins]]
    let after := classWithTwins.resolve atClass.resolution
    Visited program ∅ (.stmt classWithTwins) atClass ∧
      (Site.stmt classWithTwins).Leads atClass (.expr (.this 0 ⟨.symbol .kwThis, "this", 1⟩))
        atReceiver ∧
      atReceiver.resolution.inClass = true ∧ after.errors.size = 2 ∧
      after.scopes.length = 1 ∧ after.inClass = false ∧
      Resolution.distance? atReceiver.scopes receiverName = some 1 := by
  intro program after
  have hv : Visited program ∅ (.stmt classWithTwins) atClass :=
    .part (.part (.part (.part .program (.head _)) (.head _)) (.tail _ (.head _))) (.head _)
  have hw : (Site.stmt classWithTwins).Leads atClass
      (.expr (.this 0 ⟨.symbol .kwThis, "this", 1⟩)) atReceiver :=
    .inside (.head _) (.inside (.head _) (.inside (.head _) (.inside (.head _)
      (.inside (.head _) .here))))
  have hin : atReceiver.resolution.inClass = true := rfl
  obtain ⟨hlength, -, -, -, hclass, -, hreceiver⟩ :=
    surroundings_restored classWithTwins atClass
  obtain ⟨d, hd, -⟩ := hreceiver program ∅ _ hv 0 _ _ hw hin
  have hone : some d = some 1 := hd.symm.trans (by rfl)
  exact ⟨hv, hw, hin, rfl, hlength, hclass, hd.trans hone⟩

end Lox
