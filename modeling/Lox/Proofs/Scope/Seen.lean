/-
What the resolver knows at each position. Wherever the walk is, its scopes are
those around the position, each with the names that were declared in it in front
of the position, and the function and the class that it knows of are the ones
around the position (`Seen`). The way into a node and the way out of it keep this
up.
-/
import Lox.Proofs.Scope.Context
import Lox.Proofs.Scope.Position

namespace Lox

namespace Node

/-- The walk over a node. -/
def resolve : Node → Resolution → Resolution
  | program ss => Stmt.resolveAll ss
  | stmt s => s.resolve
  | expr e => e.resolve
  | function decl => decl.resolve .function
  | method decl => decl.resolve (if decl.isInit then .initializer else .method)
  | param name => fun r => (r.declare name).define name

/-- What a `return` is in that stands directly in the function. -/
def context : Node → FunctionContext
  | function _ => .function
  | method decl => if decl.isInit then .initializer else .method
  | _ => .none

/-- What the walk does at a node before it comes to the nodes in it. -/
def enter : Node → Resolution → Resolution
  | stmt (.var name _), r => r.declare name
  | stmt (.block _), r => r.push .empty
  | stmt (.function decl), r => (r.declare decl.name).define decl.name
  | stmt (.ret keyword value), r => r.checkReturn keyword value.isSome
  | stmt (.class name _), r => r.insideClass name
  | function decl, r => { r with function := (function decl).context }.push .empty
  | method decl, r => { r with function := (method decl).context }.push .empty
  | param name, r => (r.declare name).define name
  | expr (.variable id name), r => (Expr.variable id name).resolve r
  | expr (.this id keyword), r => (Expr.this id keyword).resolve r
  | _, r => r

/-- What the walk does at a node behind the nodes in it, where `r` was known in front of it. -/
def leave : Node → Resolution → Resolution → Resolution
  | stmt (.var name _), _, inside => inside.define name
  | stmt (.block _), _, inside => inside.pop
  | stmt (.class ..), r, inside => { inside.pop with inClass := r.inClass }
  | function _, r, inside => { inside.pop with function := r.function }
  | method _, r, inside => { inside.pop with function := r.function }
  | expr (.assign id name _), _, inside => inside.record id name
  | _, _, inside => inside

section

variable (root : Node)

/-- The resolver has a scope as it is at a position. -/
structure Shows (p : Position) (scope : Position) (known : Scope) : Prop where
  names : ∀ name, known.contains name = true ↔ root.Has scope name p
  pending : ∀ name, known.get? name = some .declared ↔ root.Pending scope name p

/-- The resolver knows what is around a position. -/
structure Seen (p : Position) (r : Resolution) : Prop where
  scopes : List.Forall₂ (root.Shows p) (root.scopesAround p) r.scopes
  function : r.function = (root.functionAround p).elim .none context
  inClass : r.inClass = true ↔ root.InClass p

end

/-! ## The parts of a step that do not depend on the scopes -/

variable {root n : Node} {p q : Position} {i : Nat} {r r' : Resolution}

@[simp] theorem enter_function (n : Node) (r : Resolution) :
    (n.enter r).function = if n.isFunction then n.context else r.function := by
  cases n with
  | stmt s => cases s <;> simp [enter, isFunction, Resolution.push]
  | expr e =>
    cases e with
    | «variable» | this => exact congrArg Prod.fst (Expr.resolve_context _ r)
    | _ => rfl
  | param name => simp [enter, isFunction]
  | _ => rfl

@[simp] theorem leave_function (n : Node) (r inside : Resolution) :
    (n.leave r inside).function = if n.isFunction then r.function else inside.function := by
  cases n with
  | stmt s => cases s <;> simp [leave, isFunction, Resolution.pop]
  | expr e =>
    cases e with
    | assign id name => exact congrArg Prod.fst (inside.context_record id name)
    | _ => rfl
  | _ => rfl

@[simp] theorem enter_inClass (n : Node) (r : Resolution) :
    (n.enter r).inClass = (n.isClass || r.inClass) := by
  cases n with
  | stmt s =>
    cases s with
    | var name => exact congrArg Prod.snd (r.context_declare name)
    | ret keyword => exact congrArg Prod.snd (r.context_checkReturn keyword _)
    | function decl =>
      exact congrArg Prod.snd (((r.declare _).context_define _).trans (r.context_declare decl.name))
    | «class» name =>
      exact congrArg Prod.snd ((Resolution.context_define _ name).trans
        (Resolution.context_declare { r with inClass := true } name))
    | _ => rfl
  | expr e =>
    cases e with
    | «variable» | this => exact congrArg Prod.snd (Expr.resolve_context _ r)
    | _ => rfl
  | param name =>
    exact congrArg Prod.snd (((r.declare name).context_define name).trans (r.context_declare name))
  | _ => rfl

@[simp] theorem leave_inClass (n : Node) (r inside : Resolution) :
    (n.leave r inside).inClass = if n.isClass then r.inClass else inside.inClass := by
  cases n with
  | stmt s =>
    cases s with
    | var name => exact congrArg Prod.snd (inside.context_define name)
    | _ => rfl
  | expr e =>
    cases e with
    | assign id name => exact congrArg Prod.snd (inside.context_record id name)
    | _ => rfl
  | _ => rfl

/-! ## Scopes on the way in -/

theorem Shows.congr {scope : Position} {known : Scope} (h : root.Shows p scope known)
    (hd : ∀ name, root.DeclaredIn scope name q ↔ root.DeclaredIn scope name p)
    (hp : ∀ name, root.Pending scope name q ↔ root.Pending scope name p) :
    root.Shows q scope known :=
  ⟨fun name => (h.names name).trans (or_congr_left (hd name).symm),
    fun name => (h.pending name).trans (hp name).symm⟩

/-- A scope that was just opened has no names yet, but for the receiver's. -/
theorem shows_opened (hn : root.node? p = some n) :
    root.Shows (p ++ [0]) p (if n.isClass then classScope else .empty) := by
  have hself : (root.scopesAround p).head? ≠ some p := fun h => (head_scopesAround h).2 rfl
  have hd : ∀ name, ¬ root.DeclaredIn p name (p ++ [0]) := by
    intro name h
    rcases (declaredIn_first hn).1 h with h | ⟨t, -, -, hs⟩
    · exact not_declaredIn_self h
    · exact hself hs
  have hp : ∀ name, ¬ root.Pending p name (p ++ [0]) := by
    intro name h
    rcases (pending_concat hn).1 h with h | ⟨t, init, -, -, hs, -⟩
    · exact not_pending_self h
    · exact hself hs
  refine ⟨fun name => ?_, fun name => iff_of_false ?_ (hp name)⟩
  · rw [Has, or_iff_right (hd name), hn]
    by_cases hc : n.isClass = true
    · rw [if_pos hc, classScope, Bindings.contains_set]
      simp [Bindings.contains, hc]
    · simp [hc, Bindings.contains]
  · split
    · rw [classScope, Bindings.get?_set]
      split <;> simp
    · simp

/-- The scopes around a node that declares nothing are the same in front of its branches. -/
theorem shown_plain {scopes : List Scope} (hn : root.node? p = some n) (hd : n.declared? = none)
    (h : List.Forall₂ (root.Shows p) (root.scopesAround p) scopes) :
    List.Forall₂ (root.Shows (p ++ [0])) (root.scopesAround p) scopes := by
  refine h.imp fun scope known hs => hs.congr (fun name => ?_) fun name => ?_
  · rw [declaredIn_first hn, hd]
    simp
  · rw [pending_concat hn, or_iff_left]
    rintro ⟨t, init, rfl, -⟩
    cases hd

/-- The scopes around the innermost one are the same where only that one has changed. -/
theorem shown_outer {scope : Position} {around : List Position} {scopes : List Scope}
    (h : List.Forall₂ (root.Shows p) around scopes) (hne : ∀ other ∈ around, scope ≠ other)
    (hd : ∀ other name, scope ≠ other →
      (root.DeclaredIn other name q ↔ root.DeclaredIn other name p))
    (hp : ∀ other name, scope ≠ other →
      (root.Pending other name q ↔ root.Pending other name p)) :
    List.Forall₂ (root.Shows q) around scopes := by
  refine ((List.forall₂_and_left around scopes).2 ⟨hne, h⟩).imp ?_
  rintro other known ⟨hne, hs⟩
  exact hs.congr (fun name => hd other name hne) fun name => hp other name hne

/-- The innermost scope gets a name. -/
theorem shown_withDefined {scopes : List Scope} {around : List Position} {t : Token}
    (h : List.Forall₂ (root.Shows p) around scopes) (hnodup : around.Nodup)
    (hd : ∀ scope name, root.DeclaredIn scope name q ↔
      root.DeclaredIn scope name p ∨ t.lexeme = name ∧ around.head? = some scope)
    (hp : ∀ scope name, root.Pending scope name p → t.lexeme = name ∧ around.head? = some scope)
    (hq : ∀ scope name, ¬ root.Pending scope name q) :
    List.Forall₂ (root.Shows q) around (withDefined t scopes) := by
  cases h with
  | nil => exact .nil
  | @cons scope known around scopes hs hrest =>
    simp only [List.head?_cons, Option.some.injEq] at hd hp
    refine .cons ⟨fun name => ?_, fun name => iff_of_false ?_ (hq scope name)⟩ ?_
    · rw [Bindings.contains_set, Bool.or_eq_true, hs.names, Has, Has, hd]
      simp only [decide_eq_true_eq, and_true]
      tauto
    · rw [Bindings.get?_set]
      split
      · simp
      · rw [hs.pending]
        intro hpending
        exact absurd (hp scope name hpending).1.symm ‹_›
    · refine shown_outer hrest (List.pairwise_cons.1 hnodup).1 (fun other name hne => ?_)
        fun other name hne => iff_of_false (hq other name) fun h => hne (hp other name h).2
      rw [hd, or_iff_left fun h => hne h.2]

/-- A function, a class or a parameter is declared in front of what is in it. -/
theorem shown_named {scopes : List Scope} {t : Token} (hn : root.node? p = some n)
    (hd : n.declared? = some t) (hvar : ∀ t init, n ≠ .stmt (.var t init))
    (h : List.Forall₂ (root.Shows p) (root.scopesAround p) scopes) :
    List.Forall₂ (root.Shows (p ++ [0])) (root.scopesAround p) (withDefined t scopes) := by
  have hnone : ∀ scope name, ¬ root.Pending scope name p := fun scope name =>
    not_pending hn (by cases n <;> first | rfl | cases hd)
  refine shown_withDefined h (root.scopesAround_nodup p) (fun scope name => ?_)
    (fun scope name hp => absurd hp (hnone scope name)) fun scope name => ?_
  · rw [declaredIn_first hn, hd]
    simp
  · rw [pending_concat hn, or_iff_right (hnone scope name)]
    rintro ⟨t, init, rfl, -⟩
    exact hvar t init rfl

/-- A variable is declared in front of its initializer, and pending there if its name is new. -/
theorem shown_declare {t : Token} {init : Option Expr}
    (hn : root.node? p = some (.stmt (.var t init)))
    (h : List.Forall₂ (root.Shows p) (root.scopesAround p) r.scopes) :
    List.Forall₂ (root.Shows (p ++ [0])) (root.scopesAround p) (r.declare t).scopes := by
  have hnone : ∀ scope name, ¬ root.Pending scope name p := fun scope name => not_pending hn rfl
  have hd : ∀ scope name, root.DeclaredIn scope name (p ++ [0]) ↔ root.DeclaredIn scope name p ∨
      t.lexeme = name ∧ (root.scopesAround p).head? = some scope := fun scope name => by
    rw [declaredIn_first hn]
    simp [declared?, Stmt.declared?]
  have hp : ∀ scope name, root.Pending scope name (p ++ [0]) ↔ t.lexeme = name ∧
      (root.scopesAround p).head? = some scope ∧ ¬ root.DeclaredIn scope name p := fun scope name => by
    rw [pending_concat hn, or_iff_right (hnone scope name)]
    simp
  have hclass : ∀ scope, (root.scopesAround p).head? = some scope →
      ¬ ∃ c, root.node? scope = some c ∧ c.isClass = true := fun scope hs =>
    scope_not_class hn nofun hs
  have hnodup := root.scopesAround_nodup p
  generalize root.scopesAround p = around at h hd hp hclass hnodup ⊢
  generalize hr : r.scopes = scopes at h
  unfold Resolution.declare
  rw [hr]
  cases h with
  | nil => rw [hr]; exact .nil
  | @cons scope known around scopes hs hrest =>
    simp only [List.head?_cons, Option.some.injEq] at hd hp hclass
    have houter : List.Forall₂ (root.Shows (p ++ [0])) around scopes := by
      refine shown_outer hrest (List.pairwise_cons.1 hnodup).1 (fun other name hne => ?_)
        fun other name hne => iff_of_false (fun h => hne ((hp other name).1 h).2.1) (hnone other name)
      rw [hd, or_iff_left fun h => hne h.2]
    have hnames : known.contains t.lexeme = true ↔ root.DeclaredIn scope t.lexeme p := by
      rw [hs.names, Has, or_iff_left fun h => hclass scope rfl h.2]
    dsimp only
    split
    next hc =>
      rw [Resolution.report_scopes, hr]
      refine .cons (hs.congr (fun name => ?_) fun name => iff_of_false ?_ (hnone scope name)) houter
      · rw [hd, or_iff_left_of_imp]
        rintro ⟨rfl, -⟩
        exact hnames.1 hc
      · rw [hp]
        rintro ⟨rfl, -, hnew⟩
        exact hnew (hnames.1 hc)
    next hc =>
      refine .cons ⟨fun name => ?_, fun name => ?_⟩ houter
      · rw [Bindings.contains_set, Bool.or_eq_true, hs.names, Has, Has, hd]
        simp only [decide_eq_true_eq, and_true]
        tauto
      · rw [Bindings.get?_set, hp]
        split
        next h =>
          subst h
          simpa using fun h => hc (hnames.2 h)
        next h =>
          rw [hs.pending]
          exact iff_of_false (hnone scope name) fun hp => h hp.1.symm

/-- Behind its initializer a variable is defined. -/
theorem shown_defined {scopes : List Scope} {t : Token} {init : Option Expr}
    (hn : root.node? (p ++ [i]) = some (.stmt (.var t init)))
    (h : List.Forall₂ (root.Shows (p ++ [i] ++ [(Node.stmt (.var t init)).children.length]))
      (root.scopesAround (p ++ [i])) scopes) :
    List.Forall₂ (root.Shows (p ++ [i + 1])) (root.scopesAround (p ++ [i]))
      (withDefined t scopes) := by
  refine shown_withDefined h (root.scopesAround_nodup _) (fun scope name => ?_)
    (fun scope name hp => ?_) fun scope name hp => ?_
  · rw [declaredIn_next hn, or_iff_left_of_imp]
    rintro ⟨hname, hs⟩
    exact ⟨p ++ [i], Position.lt_concat.2 (.inr (.inl rfl)), _, hn, t, rfl, hname, hs⟩
  · rcases (pending_concat hn).1 hp with hp | ⟨t', init', hvar, hname, hs, -⟩
    · exact absurd hp (not_pending hn rfl)
    · cases hvar
      exact ⟨hname, hs⟩
  · have : root.Pending scope name (p ++ [i]) := by
      simpa only [Pending, Position.around_concat] using hp
    exact not_pending hn rfl this

/-! ## Scopes on the way out -/

/-- Behind a node that is no variable the scopes are as they are behind its last branch. -/
theorem shown_behind {around : List Position} {scopes : List Scope}
    (hn : root.node? (p ++ [i]) = some n) (hvar : ∀ t init, n ≠ .stmt (.var t init))
    (h : List.Forall₂ (root.Shows (p ++ [i] ++ [n.children.length])) around scopes) :
    List.Forall₂ (root.Shows (p ++ [i + 1])) around scopes := by
  refine h.imp fun scope known hs => hs.congr (fun name => declaredIn_next hn) fun name => ?_
  rw [pending_concat hn, Pending, Position.around_next p (i + 1) i, or_iff_left]
  · rfl
  · rintro ⟨t, init, rfl, -⟩
    exact hvar t init rfl

theorem leave_scopes (hvar : ∀ t init, n ≠ .stmt (.var t init)) (r inside : Resolution) :
    (n.leave r inside).scopes = if n.opensScope then inside.scopes.tail else inside.scopes := by
  cases n with
  | stmt s =>
    cases s with
    | var t init => exact absurd rfl (hvar t init)
    | _ => rfl
  | expr e =>
    cases e with
    | assign id name => exact inside.record_scopes id name
    | _ => rfl
  | _ => rfl

/-! ## Steps -/

theorem seen_start (program : List Stmt) (distances : Std.HashMap NodeId Nat) :
    (Node.program program).Seen [] (.start distances) :=
  ⟨.nil, rfl, by simp [InClass, Resolution.start]⟩

/-- What is known at a position depends on the scopes and on the function and the class only. -/
theorem Seen.congr (h : root.Seen p r) (hs : r'.scopes = r.scopes) (hc : r'.context = r.context) :
    root.Seen p r' :=
  ⟨hs ▸ h.scopes, (congrArg Prod.fst hc).trans h.function,
    (congrArg (· = true) (congrArg Prod.snd hc)).to_iff.trans h.inClass⟩

theorem Seen.enter_scopes (h : root.Seen p r) (hn : root.node? p = some n) :
    List.Forall₂ (root.Shows (p ++ [0])) (root.scopesAround (p ++ [0])) (n.enter r).scopes := by
  rw [scopesAround_concat hn]
  have hnamed {t : Token} (hd : n.declared? = some t) (hvar : ∀ t init, n ≠ .stmt (.var t init)) :
      List.Forall₂ (root.Shows (p ++ [0])) (root.scopesAround p)
        ((r.declare t).define t).scopes := by
    rw [Resolution.define_scopes, Resolution.withDefined_declare]
    exact shown_named hn hd hvar h.scopes
  cases n with
  | stmt s =>
    cases s with
    | var t init => exact shown_declare hn h.scopes
    | block body => exact .cons (shows_opened hn) (shown_plain hn rfl h.scopes)
    | function decl => exact hnamed rfl nofun
    | «class» name methods =>
      rw [enter, insideClass_scopes]
      exact .cons (shows_opened hn) (shown_named hn rfl nofun h.scopes)
    | ret keyword value =>
      rw [enter, Resolution.checkReturn_scopes]
      exact shown_plain hn rfl h.scopes
    | _ => exact shown_plain hn rfl h.scopes
  | expr e =>
    cases e with
    | «variable» | this =>
      rw [enter, Expr.resolve_scopes]
      exact shown_plain hn rfl h.scopes
    | _ => exact shown_plain hn rfl h.scopes
  | function decl | method decl => exact .cons (shows_opened hn) (shown_plain hn rfl h.scopes)
  | param name => exact hnamed rfl nofun
  | program ss => exact shown_plain hn rfl h.scopes

/-- On the way into a node. -/
theorem Seen.first (h : root.Seen p r) (hn : root.node? p = some n) :
    root.Seen (p ++ [0]) (n.enter r) := by
  refine ⟨h.enter_scopes hn, ?_, ?_⟩
  · rw [enter_function, functionAround_concat hn, h.function]
    split <;> rfl
  · rw [enter_inClass, inClass_concat hn, Bool.or_eq_true, h.inClass]

theorem Seen.leave_scopes (hn : root.node? (p ++ [i]) = some n)
    (h : root.Seen (p ++ [i] ++ [n.children.length]) r') :
    List.Forall₂ (root.Shows (p ++ [i + 1])) (root.scopesAround (p ++ [i]))
      (n.leave r r').scopes := by
  have hs := h.scopes
  rw [scopesAround_concat hn] at hs
  by_cases hvar : ∃ t init, n = .stmt (.var t init)
  · obtain ⟨t, init, rfl⟩ := hvar
    rw [leave, Resolution.define_scopes]
    exact shown_defined hn hs
  · have hvar : ∀ t init, n ≠ .stmt (.var t init) := fun t init h => hvar ⟨t, init, h⟩
    rw [Node.leave_scopes hvar]
    have hs := shown_behind hn hvar hs
    split at hs
    next ho =>
      obtain ⟨known, scopes, -, hs, he⟩ := List.forall₂_cons_left_iff.1 hs
      rw [if_pos ho, he]
      exact hs
    next ho => rwa [if_neg ho]

/-- From a node to the next one. -/
theorem Seen.next (h : root.Seen (p ++ [i]) r) (hn : root.node? (p ++ [i]) = some n)
    (h' : root.Seen (p ++ [i] ++ [n.children.length]) r') :
    root.Seen (p ++ [i + 1]) (n.leave r r') := by
  have hfunction := h'.function
  have hclass := h'.inClass
  rw [functionAround_concat hn] at hfunction
  rw [inClass_concat hn] at hclass
  refine ⟨?_, ?_, ?_⟩
  · rw [scopesAround, Position.around_next p (i + 1) i]
    exact Seen.leave_scopes hn h'
  · rw [leave_function, functionAround, Position.around_next p (i + 1) i]
    split
    next => exact h.function
    next hf => rwa [if_neg hf] at hfunction
  · rw [leave_inClass, InClass, Position.around_next p (i + 1) i]
    split
    next => exact h.inClass
    next hc => rwa [or_iff_right hc] at hclass

end Node

end Lox
