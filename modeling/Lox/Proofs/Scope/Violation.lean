/-
What the walk leaves behind at each node: an error where the node breaks a rule,
and a distance where it refers to a name that a scope around it has. Both are said
of positions alone (`Violates`, `Nearest`). One induction over the nodes shows that
the walk reports this and nothing else, each thing once (`walks`).
-/
import Lox.Proofs.Scope.Distance
import Lox.Proofs.Scope.Seen

namespace Lox

/-- What a node leaves behind. -/
inductive Event
  | error (e : ResolveError)
  | record (id : NodeId) (distance : Nat)

namespace Node

section

variable (root : Node)

/-- The node at a position breaks a rule. -/
inductive Violates (p : Position) : ResolveError → Prop
  /-- The name was declared directly in the same scope before. -/
  | alreadyDeclared {n t scope} : root.node? p = some n → n.declared? = some t →
    (root.scopesAround p).head? = some scope → root.DeclaredIn scope t.lexeme p →
    Violates p ⟨t, .alreadyDeclared⟩
  /-- A variable in the initializer of a variable of its name, which is new and no global. -/
  | readInInitializer {id name scope} : root.node? p = some (.expr (.variable id name)) →
    root.Pending scope name.lexeme p → Violates p ⟨name, .readInInitializer⟩
  /-- A `return` outside of functions and methods. -/
  | returnAtTopLevel {keyword value} : root.node? p = some (.stmt (.ret keyword value)) →
    root.functionAround p = none → Violates p ⟨keyword, .returnAtTopLevel⟩
  /-- A `return` with a value whose innermost function is an initializer. -/
  | valueFromInitializer {keyword e decl} : root.node? p = some (.stmt (.ret keyword (some e))) →
    root.functionAround p = some (.method decl) → decl.name.lexeme = FunctionDecl.initName →
    Violates p ⟨keyword, .valueFromInitializer⟩
  /-- A receiver outside of classes. -/
  | thisOutsideClass {id keyword} : root.node? p = some (.expr (.this id keyword)) →
    ¬ root.InClass p → Violates p ⟨keyword, .thisOutsideClass⟩

/-- The number of a scope around a position, counted from the innermost one, if it is the first to
have a name. -/
structure Nearest (name : String) (p : Position) (d : Nat) : Prop where
  has : ∃ scope, (root.scopesAround p)[d]? = some scope ∧ root.Has scope name p
  least : ∀ d' < d, ∀ scope, (root.scopesAround p)[d']? = some scope → ¬ root.Has scope name p

/-- What the node at a position leaves behind. -/
inductive Occurs (p : Position) : Event → Prop
  | error {e} : root.Violates p e → Occurs p (.error e)
  | record {e : Expr} {id name d} : root.node? p = some (.expr e) → e.refersTo id name →
    ((∃ i keyword, e = .this i keyword) → root.InClass p) → root.Nearest name.lexeme p d →
    Occurs p (.record id d)

end

/-! ## What may occur at a node -/

variable {root n : Node} {p : Position} {i : Nat} {r r' r'' : Resolution} {event : Event}

theorem Occurs.node? (h : root.Occurs p event) : ∃ n, root.node? p = some n := by
  cases h with
  | error h => cases h <;> exact ⟨_, by assumption⟩
  | record h => exact ⟨_, h⟩

theorem occurs_declared {t : Token} (hn : root.node? p = some n) (hd : n.declared? = some t) :
    root.Occurs p event ↔ event = .error ⟨t, .alreadyDeclared⟩ ∧
      ∃ scope, (root.scopesAround p).head? = some scope ∧ root.DeclaredIn scope t.lexeme p := by
  constructor
  · rintro (⟨h⟩ | ⟨hm, -⟩)
    · cases h with
      | alreadyDeclared hm ht hs h =>
        cases Option.some.inj (hn.symm.trans hm)
        cases Option.some.inj (hd.symm.trans ht)
        exact ⟨rfl, _, hs, h⟩
      | readInInitializer h | returnAtTopLevel h | valueFromInitializer h | thisOutsideClass h =>
        cases Option.some.inj (hn.symm.trans h)
        cases hd
    · cases Option.some.inj (hn.symm.trans hm)
      cases hd
  · rintro ⟨rfl, scope, hs, h⟩
    exact .error (.alreadyDeclared hn hd hs h)

theorem occurs_ret {keyword : Token} {value : Option Expr}
    (hn : root.node? p = some (.stmt (.ret keyword value))) : root.Occurs p event ↔
      (event = .error ⟨keyword, .returnAtTopLevel⟩ ∧ root.functionAround p = none) ∨
      (event = .error ⟨keyword, .valueFromInitializer⟩ ∧ value.isSome ∧
        ∃ decl, root.functionAround p = some (.method decl) ∧ decl.isInit = true) := by
  constructor
  · rintro (⟨h⟩ | ⟨hm, -⟩)
    · cases h with
      | returnAtTopLevel hm h =>
        cases Option.some.inj (hn.symm.trans hm)
        exact .inl ⟨rfl, h⟩
      | valueFromInitializer hm h hinit =>
        cases Option.some.inj (hn.symm.trans hm)
        exact .inr ⟨rfl, rfl, _, h, beq_iff_eq.2 hinit⟩
      | _ => simp_all [declared?, Stmt.declared?]
    · simp_all
  · rintro (⟨rfl, h⟩ | ⟨rfl, hv, decl, h, hinit⟩)
    · exact .error (.returnAtTopLevel hn h)
    · obtain ⟨e, rfl⟩ := Option.isSome_iff_exists.1 hv
      exact .error (.valueFromInitializer hn h (beq_iff_eq.1 hinit))

theorem occurs_variable {id : NodeId} {name : Token}
    (hn : root.node? p = some (.expr (.variable id name))) : root.Occurs p event ↔
      (event = .error ⟨name, .readInInitializer⟩ ∧ ∃ scope, root.Pending scope name.lexeme p) ∨
      ∃ d, event = .record id d ∧ root.Nearest name.lexeme p d := by
  constructor
  · rintro (⟨h⟩ | ⟨hm, href, -, h⟩)
    · cases h with
      | readInInitializer hm h =>
        cases Option.some.inj (hn.symm.trans hm)
        exact .inl ⟨rfl, _, h⟩
      | _ => simp_all [declared?]
    · cases Option.some.inj (hn.symm.trans hm)
      obtain ⟨rfl, rfl⟩ := href
      exact .inr ⟨_, rfl, h⟩
  · rintro (⟨rfl, scope, h⟩ | ⟨d, rfl, h⟩)
    · exact .error (.readInInitializer hn h)
    · exact .record hn ⟨rfl, rfl⟩ (by rintro ⟨_, _, he⟩; cases he) h

theorem occurs_this {id : NodeId} {keyword : Token}
    (hn : root.node? p = some (.expr (.this id keyword))) : root.Occurs p event ↔
      (event = .error ⟨keyword, .thisOutsideClass⟩ ∧ ¬ root.InClass p) ∨
      ∃ d, event = .record id d ∧ root.InClass p ∧ root.Nearest keyword.lexeme p d := by
  constructor
  · rintro (⟨h⟩ | ⟨hm, href, hclass, h⟩)
    · cases h with
      | thisOutsideClass hm h =>
        cases Option.some.inj (hn.symm.trans hm)
        exact .inl ⟨rfl, h⟩
      | _ => simp_all [declared?]
    · cases Option.some.inj (hn.symm.trans hm)
      obtain ⟨rfl, rfl⟩ := href
      exact .inr ⟨_, rfl, hclass ⟨_, _, rfl⟩, h⟩
  · rintro (⟨rfl, h⟩ | ⟨d, rfl, hclass, h⟩)
    · exact .error (.thisOutsideClass hn h)
    · exact .record hn ⟨rfl, rfl⟩ (fun _ => hclass) h

theorem occurs_assign {id : NodeId} {name : Token} {value : Expr}
    (hn : root.node? p = some (.expr (.assign id name value))) : root.Occurs p event ↔
      ∃ d, event = .record id d ∧ root.Nearest name.lexeme p d := by
  constructor
  · rintro (⟨h⟩ | ⟨hm, href, -, h⟩)
    · cases h <;> simp_all [declared?]
    · cases Option.some.inj (hn.symm.trans hm)
      obtain ⟨rfl, rfl⟩ := href
      exact ⟨_, rfl, h⟩
  · rintro ⟨d, rfl, h⟩
    exact .record hn ⟨rfl, rfl⟩ (by rintro ⟨_, _, he⟩; cases he) h

/-- Nothing occurs at the other nodes. -/
theorem not_occurs (hn : root.node? p = some n) (hd : n.declared? = none)
    (hret : ∀ keyword value, n ≠ .stmt (.ret keyword value))
    (href : ∀ e id name, n = .expr e → ¬ e.refersTo id name) : ¬ root.Occurs p event := by
  rintro (⟨h⟩ | ⟨hm, he, -⟩)
  · cases h with
    | alreadyDeclared h =>
      cases Option.some.inj (hn.symm.trans h)
      simp_all
    | readInInitializer h | thisOutsideClass h =>
      exact href _ _ _ (Option.some.inj (hn.symm.trans h)) ⟨rfl, rfl⟩
    | returnAtTopLevel h | valueFromInitializer h =>
      exact hret _ _ (Option.some.inj (hn.symm.trans h))
  · exact href _ _ _ (Option.some.inj (hn.symm.trans hm)) he

/-- A node breaks one rule at most. -/
theorem Violates.unique {e e' : ResolveError} (h : root.Violates p e) (h' : root.Violates p e') :
    e = e' := by
  have ho : root.Occurs p (.error e') := .error h'
  cases h with
  | alreadyDeclared hn hd =>
    cases ((occurs_declared hn hd).1 ho).1
    rfl
  | readInInitializer hn =>
    rcases (occurs_variable hn).1 ho with ⟨he, -⟩ | ⟨d, he, -⟩
    · cases he
      rfl
    · cases he
  | returnAtTopLevel hn hf =>
    rcases (occurs_ret hn).1 ho with ⟨he, -⟩ | ⟨he, -, decl, hd, -⟩
    · cases he
      rfl
    · cases hf.symm.trans hd
  | valueFromInitializer hn hf =>
    rcases (occurs_ret hn).1 ho with ⟨he, hd⟩ | ⟨he, -⟩
    · cases hf.symm.trans hd
    · cases he
      rfl
  | thisOutsideClass hn =>
    rcases (occurs_this hn).1 ho with ⟨he, -⟩ | ⟨d, he, -⟩
    · cases he
      rfl
    · cases he

/-! ## What the resolver sees at a node -/

/-- The distance that the resolver finds is the lexical one. -/
theorem Seen.distance?_iff (h : root.Seen p r) {name : String} {d : Nat} :
    Resolution.distance? r.scopes name = some d ↔ root.Nearest name p d := by
  have key {around : List Position} {scopes : List Scope}
      (h : List.Forall₂ (root.Shows p) around scopes) : ∀ d,
      scopes.findIdx? (fun known => known.contains name) = some d ↔
        (∃ scope, around[d]? = some scope ∧ root.Has scope name p) ∧
          ∀ d' < d, ∀ scope, around[d']? = some scope → ¬ root.Has scope name p := by
    induction h with
    | nil => simp
    | @cons scope known around scopes hs _ ih =>
      intro d
      rw [List.findIdx?_cons]
      by_cases hc : known.contains name = true
      · have hhas : root.Has scope name p := (hs.names name).1 hc
        rw [if_pos hc]
        constructor
        · rintro ⟨rfl⟩
          exact ⟨⟨scope, rfl, hhas⟩, fun d' hd' => absurd hd' (Nat.not_lt_zero d')⟩
        · rintro ⟨-, hleast⟩
          cases d with
          | zero => rfl
          | succ d => exact absurd hhas (hleast 0 (Nat.succ_pos d) scope rfl)
      · have hhas : ¬ root.Has scope name p := fun hhas => hc ((hs.names name).2 hhas)
        rw [if_neg hc]
        cases d with
        | zero => simp [hhas]
        | succ d =>
          rw [Option.map_eq_some_iff]
          simp only [Nat.succ.injEq, exists_eq_right, ih d, List.getElem?_cons_succ]
          refine and_congr_right fun _ => ⟨fun hleast d' hd' => ?_, fun hleast d' hd' => ?_⟩
          · cases d' with
            | zero => rintro _ ⟨rfl⟩; exact hhas
            | succ d' => exact hleast d' (Nat.lt_of_succ_lt_succ hd')
          · exact hleast (d' + 1) (Nat.succ_lt_succ hd')
  exact (key h.scopes d).trans ⟨fun h => ⟨h.1, h.2⟩, fun h => ⟨h.has, h.least⟩⟩

/-- A name is pending for the resolver at a variable exactly if it is. -/
theorem Seen.isPending_iff (h : root.Seen p r) {e : Expr} (hn : root.node? p = some (.expr e))
    {name : String} : r.isPending name = true ↔ ∃ scope, root.Pending scope name p := by
  have hs := h.scopes
  have hhead : ∀ scope, root.Pending scope name p → (root.scopesAround p).head? = some scope := by
    rintro scope ⟨q, hq, t, init, hvar, -, hscope, -⟩
    rwa [(below_var hvar hn (Position.mem_around.1 hq).1).2]
  generalize root.scopesAround p = around at hs hhead
  unfold Resolution.isPending
  generalize r.scopes = scopes at hs
  cases hs with
  | nil => simpa using fun scope hp => nomatch hhead scope hp
  | @cons scope known around scopes hs _ =>
    rw [beq_iff_eq, hs.pending]
    refine ⟨fun hp => ⟨scope, hp⟩, fun ⟨other, hp⟩ => ?_⟩
    cases Option.some.inj (hhead other hp)
    exact hp

/-- The innermost scope has a name for the resolver exactly if it was declared there, unless only
methods may stand in that scope. -/
theorem Seen.contains_iff (h : root.Seen p r) (hn : root.node? p = some n)
    (hmethod : ∀ decl, n ≠ .method decl) {known : Scope} {outer : List Scope}
    (hr : r.scopes = known :: outer) {name : String} : known.contains name = true ↔
      ∃ scope, (root.scopesAround p).head? = some scope ∧ root.DeclaredIn scope name p := by
  have hs := h.scopes
  rw [hr] at hs
  obtain ⟨scope, around, hs, -, he⟩ := List.forall₂_cons_right_iff.1 hs
  have hclass := scope_not_class hn hmethod (by rw [he]; rfl)
  rw [hs.names, Has, or_iff_left fun h => hclass h.2, he]
  simp

/-! ## Reports -/

end Node

/-- What a walk leaves behind for others: the errors and the distances. -/
def Resolution.notes (r : Resolution) : List ResolveError × Std.HashMap NodeId Nat :=
  (r.errors.toList, r.distances)

/-- An event is added to what was left behind before. -/
def Event.add (notes : List ResolveError × Std.HashMap NodeId Nat) :
    Event → List ResolveError × Std.HashMap NodeId Nat
  | .error e => (notes.1 ++ [e], notes.2)
  | .record id d => (notes.1, notes.2.insert id d)

/-- On the way from one resolution to the other these events occurred at these positions, each of
them once, and nothing else did. -/
def Reports (S : Position → Event → Prop) (r r' : Resolution) : Prop :=
  ∃ found : List (Position × Event), found.Nodup ∧ (∀ p event, (p, event) ∈ found ↔ S p event) ∧
    r'.notes = (found.map Prod.snd).foldl Event.add r.notes

namespace Reports

variable {S T U : Position → Event → Prop} {r r' r'' : Resolution} {p : Position} {event : Event}

theorem congr (h : Reports T r r') (hS : ∀ p event, S p event ↔ T p event) : Reports S r r' := by
  obtain ⟨found, hnodup, hmem, hnotes⟩ := h
  exact ⟨found, hnodup, fun p event => (hmem p event).trans (hS p event).symm, hnotes⟩

theorem silent (h : r'.notes = r.notes) (hS : ∀ p event, ¬ S p event) : Reports S r r' :=
  ⟨[], .nil, fun p event => iff_of_false List.not_mem_nil (hS p event), h⟩

theorem trans (h : Reports S r r') (h' : Reports T r' r'')
    (hdisjoint : ∀ p event, S p event → ¬ T p event)
    (hU : ∀ p event, U p event ↔ S p event ∨ T p event) : Reports U r r'' := by
  obtain ⟨found, hnodup, hmem, hnotes⟩ := h
  obtain ⟨found', hnodup', hmem', hnotes'⟩ := h'
  refine ⟨found ++ found', ?_, fun p event => ?_, ?_⟩
  · refine List.Nodup.append hnodup hnodup' ?_
    rintro ⟨p, event⟩ hf hf'
    exact hdisjoint p event ((hmem p event).1 hf) ((hmem' p event).1 hf')
  · rw [List.mem_append, hmem, hmem', hU]
  · rw [hnotes', hnotes, List.map_append, List.foldl_append]

/-- One event, if there is a reason for it. -/
theorem one {c : Prop} (h : c → r'.notes = event.add r.notes) (h' : ¬ c → r'.notes = r.notes) :
    Reports (fun q other => q = p ∧ other = event ∧ c) r r' := by
  by_cases hc : c
  · refine ⟨[(p, event)], List.nodup_singleton _, fun q other => ?_, h hc⟩
    simp [hc]
  · exact silent (h' hc) fun q other ho => hc ho.2.2

/-- A fault is reported if there is one. -/
theorem reported {t : Token} {fault : ResolveFault} {c c' : Prop} [Decidable c] (hc : c ↔ c') :
    Reports (fun q other => q = p ∧ other = .error ⟨t, fault⟩ ∧ c') r
      (if c then r.report t fault else r) := by
  refine .one (fun h => ?_) fun h => ?_
  · rw [if_pos (hc.2 h)]
    simp [Resolution.notes, Resolution.report, Event.add]
  · rw [if_neg (mt hc.1 h)]

/-- What is left behind counts, and not what is known of the place. -/
theorem of_notes (h : Reports S r r') (he : r''.notes = r'.notes) : Reports S r r'' := by
  obtain ⟨found, hnodup, hmem, hnotes⟩ := h
  exact ⟨found, hnodup, hmem, he.trans hnotes⟩

end Reports

theorem Resolution.notes_define (r : Resolution) (name : Token) :
    (r.define name).notes = r.notes := by
  unfold define
  split <;> rfl

theorem Resolution.notes_insideClass (r : Resolution) (name : Token) :
    (r.insideClass name).notes = (r.declare name).notes := by
  refine (notes_define _ name).trans ?_
  unfold declare
  dsimp only
  split
  · rfl
  · split <;> rfl

namespace Node

variable {root n : Node} {p : Position} {i : Nat} {r r' r'' : Resolution} {event : Event}

/-! ## Reports of one node -/

/-- What occurs at one position. -/
def Own (root : Node) (p : Position) (q : Position) (event : Event) : Prop :=
  q = p ∧ root.Occurs p event

theorem isFunction_of_functionAround (h : root.functionAround p = some n) :
    n.isFunction = true := by
  obtain ⟨q, -, hq⟩ := List.exists_of_findSome?_eq_some h
  exact (Option.filter_eq_some_iff.1 hq).2

theorem Seen.function_none_iff (h : root.Seen p r) :
    r.function = .none ↔ root.functionAround p = none := by
  rw [h.function]
  cases hf : root.functionAround p with
  | none => simp
  | some n =>
    have hn := isFunction_of_functionAround hf
    cases n with
    | function decl => simp [context]
    | method decl => cases hi : decl.isInit <;> simp [context, hi]
    | _ => cases hn

theorem Seen.function_initializer_iff (h : root.Seen p r) : r.function = .initializer ↔
    ∃ decl, root.functionAround p = some (.method decl) ∧ decl.isInit = true := by
  rw [h.function]
  cases root.functionAround p with
  | none => simp
  | some n =>
    cases n with
    | method decl => cases hi : decl.isInit <;> simp [context, hi]
    | _ => simp [context]

theorem Seen.declare_reports (h : root.Seen p r) (hn : root.node? p = some n) {t : Token}
    (hd : n.declared? = some t) : Reports (Own root p) r (r.declare t) := by
  have hmethod : ∀ decl, n ≠ .method decl := by
    rintro decl rfl
    cases hd
  refine Reports.congr ?_ fun q event => and_congr_right fun _ => occurs_declared hn hd
  have hs := h.scopes
  unfold Resolution.declare
  split
  next hr =>
    rw [hr, List.forall₂_nil_right_iff] at hs
    refine .silent rfl ?_
    rintro q event ⟨-, -, scope, hscope, -⟩
    rw [hs] at hscope
    cases hscope
  next known outer hr =>
    exact (Reports.reported (h.contains_iff hn hmethod hr)).of_notes (by split <;> rfl)

theorem Seen.checkReturn_reports (h : root.Seen p r) {keyword : Token} {value : Option Expr}
    (hn : root.node? p = some (.stmt (.ret keyword value))) :
    Reports (Own root p) r (r.checkReturn keyword value.isSome) := by
  have htop : Reports (fun q event => q = p ∧ event = .error ⟨keyword, .returnAtTopLevel⟩ ∧
      root.functionAround p = none) r
      (if r.function = .none then r.report keyword .returnAtTopLevel else r) :=
    .reported h.function_none_iff
  unfold Resolution.checkReturn
  dsimp only
  generalize hr : (if r.function = .none then r.report keyword .returnAtTopLevel else r) = r₁ at *
  have hfunction : r₁.function = r.function := by
    rw [← hr]
    split <;> rfl
  have hinit : (value.isSome && decide (r₁.function = .initializer)) = true ↔ value.isSome ∧
      ∃ decl, root.functionAround p = some (.method decl) ∧ decl.isInit = true := by
    rw [Bool.and_eq_true, decide_eq_true_eq, hfunction, h.function_initializer_iff]
  refine htop.trans (.reported (p := p) hinit) ?_ fun q event => ?_
  · rintro q event ⟨-, rfl, -⟩ ⟨-, h, -⟩
    cases h
  · rw [Own, occurs_ret hn]
    tauto

/-- A distance is recorded if there is one. -/
theorem Seen.record_reports (h : root.Seen p r) (id : NodeId) (name : Token) :
    Reports (fun q event => q = p ∧ ∃ d, event = .record id d ∧ root.Nearest name.lexeme p d) r
      (r.record id name) := by
  unfold Resolution.record
  split
  next d hd =>
    have hone : Reports (fun q event => q = p ∧ event = .record id d ∧ True) r
        { r with distances := r.distances.insert id d } := .one (fun _ => rfl) nofun
    refine hone.congr fun q event => ?_
    simp [← h.distance?_iff, hd, eq_comm]
  next hd =>
    refine .silent rfl ?_
    rintro q event ⟨-, d, -, hD⟩
    rw [h.distance?_iff.2 hD] at hd
    cases hd

theorem Seen.variable_reports (h : root.Seen p r) {id : NodeId} {name : Token}
    (hn : root.node? p = some (.expr (.variable id name))) :
    Reports (Own root p) r ((Expr.variable id name).resolve r) := by
  have hpending : Reports (fun q event => q = p ∧ event = .error ⟨name, .readInInitializer⟩ ∧
      ∃ scope, root.Pending scope name.lexeme p) r
      (if r.isPending name.lexeme then r.report name .readInInitializer else r) :=
    .reported (h.isPending_iff hn)
  rw [Expr.resolve]
  generalize hr : (if r.isPending name.lexeme then r.report name .readInInitializer else r) = r₁ at *
  have hseen : root.Seen p r₁ := by
    rw [← hr]
    split
    · exact h.congr rfl rfl
    · exact h
  refine hpending.trans (hseen.record_reports id name) ?_ fun q event => ?_
  · rintro q event ⟨-, rfl, -⟩ ⟨-, d, h, -⟩
    cases h
  · rw [Own, occurs_variable hn]
    tauto

theorem Seen.this_reports (h : root.Seen p r) {id : NodeId} {keyword : Token}
    (hn : root.node? p = some (.expr (.this id keyword))) :
    Reports (Own root p) r ((Expr.this id keyword).resolve r) := by
  rw [Expr.resolve]
  split
  next hc =>
    have hclass := h.inClass.1 hc
    refine (h.record_reports id keyword).congr fun q event => ?_
    rw [Own, occurs_this hn]
    simp [hclass]
  next hc =>
    have hclass := mt h.inClass.2 hc
    refine (Reports.reported (p := p) (c := True) Iff.rfl).congr fun q event => ?_
    rw [Own, occurs_this hn]
    simp [hclass]

/-- On the way in a node leaves behind what it leaves behind at all, unless it is an assignment. -/
theorem Seen.enter_reports (h : root.Seen p r) (hn : root.node? p = some n)
    (hassign : ∀ id name value, n ≠ .expr (.assign id name value)) :
    Reports (Own root p) r (n.enter r) := by
  have hnamed {t : Token} (hd : n.declared? = some t) :
      Reports (Own root p) r ((r.declare t).define t) :=
    (h.declare_reports hn hd).of_notes (Resolution.notes_define _ t)
  have hsilent (hd : n.declared? = none) (hret : ∀ keyword value, n ≠ .stmt (.ret keyword value))
      (href : ∀ e id name, n = .expr e → ¬ e.refersTo id name) (he : (n.enter r).notes = r.notes) :
      Reports (Own root p) r (n.enter r) :=
    .silent he fun q event ho => not_occurs hn hd hret href ho.2
  cases n with
  | stmt s =>
    cases s with
    | var t init => exact h.declare_reports hn rfl
    | function decl => exact hnamed rfl
    | «class» t methods =>
      exact (h.declare_reports hn rfl).of_notes (Resolution.notes_insideClass r t)
    | ret keyword value => exact h.checkReturn_reports hn
    | _ => exact hsilent rfl (by simp) (by simp) rfl
  | expr e =>
    cases e with
    | «variable» id name => exact h.variable_reports hn
    | this id keyword => exact h.this_reports hn
    | assign id name value => exact absurd rfl (hassign id name value)
    | _ => exact hsilent rfl (by simp) (by rintro _ id name ⟨rfl⟩ h; exact h) rfl
  | param t => exact hnamed rfl
  | program | function | method => exact hsilent rfl (by simp) (by simp) rfl

theorem leave_notes (hassign : ∀ id name value, n ≠ .expr (.assign id name value))
    (r inside : Resolution) : (n.leave r inside).notes = inside.notes := by
  cases n with
  | stmt s =>
    cases s with
    | var t init => exact inside.notes_define t
    | _ => rfl
  | expr e =>
    cases e with
    | assign id name value => exact absurd rfl (hassign id name value)
    | _ => rfl
  | _ => rfl

end Node

end Lox
