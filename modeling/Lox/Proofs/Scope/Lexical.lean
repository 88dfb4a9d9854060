/-
The distances that are recorded for a program. No two references of a program that
was read have one number, so what the walk records at a position is there to stay,
and for each name it is the number of scopes between the position and the nearest
one that has the name in front of it. The receiver is had by classes alone, if no
name is spelled like it.
-/
import Lox.Proofs.Grammar.SalvageStatement
import Lox.Proofs.Grammar.Spelling
import Lox.Proofs.Scope.Standing
import Lox.Proofs.Scope.Walk

namespace Lox

namespace Node

variable {root n m c : Node} {p q : Position} {i : Nat}

/-! ## References of nodes -/

/-- The references in a node. -/
def references : Node → List Reference
  | program ss => Stmt.allReferences ss
  | stmt s => s.references
  | expr e => e.references
  | function decl | method decl => decl.references
  | param _ => []

/-- The reference that a node is itself. -/
def reference? : Node → Option Reference
  | expr (.variable id name) => some ⟨.read, id, name⟩
  | expr (.assign id name _) => some ⟨.write, id, name⟩
  | expr (.this id keyword) => some ⟨.receiver, id, keyword⟩
  | _ => none

theorem allReferences_exprs (es : List Expr) :
    Expr.allReferences es = (es.map expr).flatMap references := by
  induction es with
  | nil => rfl
  | cons e rest ih => rw [Expr.allReferences, ih]; rfl

theorem allReferences_stmts (ss : List Stmt) :
    Stmt.allReferences ss = (ss.map stmt).flatMap references := by
  induction ss with
  | nil => rfl
  | cons s rest ih => rw [Stmt.allReferences, ih]; rfl

theorem allReferences_methods (ds : List FunctionDecl) :
    FunctionDecl.allReferences ds = (ds.map method).flatMap references := by
  induction ds with
  | nil => rfl
  | cons d rest ih => rw [FunctionDecl.allReferences, ih]; rfl

theorem references_body (params : List Token) (body : List Stmt) :
    Stmt.allReferences body = (params.map param ++ body.map stmt).flatMap references := by
  have hparams : (params.map param).flatMap references = [] := by simp [references]
  rw [List.flatMap_append, hparams, List.nil_append, allReferences_stmts]

/-- The references in a node are itself and those in the nodes directly in it. -/
theorem references_eq (n : Node) :
    n.references = n.reference?.toList ++ n.children.flatMap references := by
  cases n with
  | program ss => exact allReferences_stmts ss
  | stmt s =>
    cases s with
    | var t init => cases init <;> simp [references, reference?, children, Stmt.references]
    | block body => exact allReferences_stmts body
    | cond test thenPart elsePart =>
      cases elsePart <;> simp [references, reference?, children, Stmt.references]
    | ret keyword value => cases value <;> simp [references, reference?, children, Stmt.references]
    | «class» t ds => exact allReferences_methods ds
    | _ => simp [references, reference?, children, Stmt.references]
  | expr e =>
    cases e with
    | call callee t args =>
      simp [references, reference?, children, Expr.references, allReferences_exprs]
    | _ => simp [references, reference?, children, Expr.references]
  | function decl | method decl =>
    obtain ⟨t, params, body⟩ := decl
    exact references_body params body
  | param t => rfl

theorem mem_references (hn : root.node? p = some n) {ref : Reference}
    (href : n.reference? = some ref) : ref ∈ root.references := by
  induction p generalizing root with
  | nil =>
    cases hn
    rw [references_eq, href]
    exact List.mem_append_left _ (List.mem_singleton.2 rfl)
  | cons i p ih =>
    rw [node?] at hn
    split at hn
    next child hc =>
      rw [references_eq]
      exact List.mem_append_right _ (List.mem_flatMap.2 ⟨child, List.mem_of_getElem? hc, ih hn⟩)
    next => cases hn

/-- The numbers of the references in a node are in one of its branches each. -/
theorem branch_unique (hnodup : (n.references.map Reference.id).Nodup) {i j : Nat} {c d : Node}
    (hc : n.children[i]? = some c) (hd : n.children[j]? = some d) {id : NodeId}
    (hid : id ∈ c.references.map Reference.id) (hid' : id ∈ d.references.map Reference.id) :
    i = j := by
  rw [references_eq, List.map_append, List.map_flatMap, List.nodup_append] at hnodup
  have hpairs := List.pairwise_iff_getElem.1 (List.nodup_flatMap.1 hnodup.2.1).2
  obtain ⟨hi, rfl⟩ := List.getElem?_eq_some_iff.1 hc
  obtain ⟨hj, rfl⟩ := List.getElem?_eq_some_iff.1 hd
  rcases Nat.lt_trichotomy i j with hlt | heq | hgt
  · exact absurd hid' (hpairs i j hi hj hlt hid)
  · exact heq
  · exact absurd hid (hpairs j i hj hi hgt hid')

/-- A node that is a reference has a number that the nodes in it do not have. -/
theorem reference_not_inside (hnodup : (n.references.map Reference.id).Nodup) {ref : Reference}
    (href : n.reference? = some ref) (hc : c ∈ n.children) :
    ref.id ∉ c.references.map Reference.id := by
  rw [references_eq, href, List.map_append, List.map_flatMap, List.nodup_append] at hnodup
  intro hid
  exact hnodup.2.2 ref.id (List.mem_singleton.2 rfl) ref.id (List.mem_flatMap.2 ⟨c, hc, hid⟩) rfl

theorem nodup_child (hnodup : (n.references.map Reference.id).Nodup) (hc : c ∈ n.children) :
    (c.references.map Reference.id).Nodup := by
  rw [references_eq, List.map_append, List.map_flatMap, List.nodup_append] at hnodup
  exact (List.nodup_flatMap.1 hnodup.2.1).1 c hc

/-- References with one number are at one position, if no two references have one number. -/
theorem position_unique (hnodup : (root.references.map Reference.id).Nodup)
    (hn : root.node? p = some n) (hm : root.node? q = some m) {ref ref' : Reference}
    (href : n.reference? = some ref) (href' : m.reference? = some ref') (hid : ref.id = ref'.id) :
    p = q := by
  have branch {root : Node} {i : Nat} {p : Position} {n : Node}
      (h : root.node? (i :: p) = some n) :
      ∃ c, root.children[i]? = some c ∧ c.node? p = some n := by
    rw [node?] at h
    split at h
    next c hc => exact ⟨c, hc, h⟩
    next => cases h
  induction p generalizing root q with
  | nil =>
    cases hn
    cases q with
    | nil => rfl
    | cons j q =>
      obtain ⟨d, hd, hmd⟩ := branch hm
      have := reference_not_inside hnodup href (List.mem_of_getElem? hd)
      exact absurd (hid ▸ List.mem_map_of_mem (mem_references hmd href')) this
  | cons i p ih =>
    obtain ⟨c, hc, hnc⟩ := branch hn
    have hin : ref.id ∈ c.references.map Reference.id :=
      List.mem_map_of_mem (mem_references hnc href)
    cases q with
    | nil =>
      cases hm
      exact absurd (hid ▸ hin) (reference_not_inside hnodup href' (List.mem_of_getElem? hc))
    | cons j q =>
      obtain ⟨d, hd, hmd⟩ := branch hm
      obtain rfl : i = j := branch_unique hnodup hc hd hin
        (hid ▸ List.mem_map_of_mem (mem_references hmd href'))
      cases Option.some.inj (hc.symm.trans hd)
      rw [ih (nodup_child hnodup (List.mem_of_getElem? hc)) hnc hmd]

end Node

/-! ## What is recorded -/

namespace Event

variable {events : List Event} {notes : List ResolveError × Std.HashMap NodeId Nat} {id : NodeId}

theorem foldl_add_snd_of_none (h : ∀ d, .record id d ∉ events) :
    (events.foldl add notes).2[id]? = notes.2[id]? := by
  induction events generalizing notes with
  | nil => rfl
  | cons event rest ih =>
    simp only [List.mem_cons, not_or] at h
    rw [List.foldl_cons, ih fun d => (h d).2]
    cases event with
    | error e => rfl
    | record id' d =>
      rw [add, Std.HashMap.getElem?_insert, if_neg]
      rw [beq_iff_eq]
      rintro rfl
      exact (h d).1 rfl

/-- What is recorded for a number once is found under it. -/
theorem foldl_add_snd_of_mem {d : Nat} (h : .record id d ∈ events)
    (hunique : ∀ d', .record id d' ∈ events → d' = d) :
    (events.foldl add notes).2[id]? = some d := by
  induction events generalizing notes with
  | nil => cases h
  | cons event rest ih =>
    rw [List.foldl_cons]
    by_cases hrest : ∃ d', .record id d' ∈ rest
    · obtain ⟨d', hd'⟩ := hrest
      refine ih ?_ fun d' hd' => hunique d' (List.mem_cons_of_mem _ hd')
      rwa [← hunique d' (List.mem_cons_of_mem _ hd')]
    · rw [foldl_add_snd_of_none fun d' hd' => hrest ⟨d', hd'⟩]
      rcases List.mem_cons.1 h with rfl | h
      · exact Std.HashMap.getElem?_insert_self
      · exact absurd ⟨d, h⟩ hrest

end Event

namespace Node

theorem Nearest.unique {root : Node} {name : String} {p : Position} {d d' : Nat}
    (h : root.Nearest name p d) (h' : root.Nearest name p d') : d = d' := by
  obtain ⟨scope, hs, hhas⟩ := h.has
  obtain ⟨scope', hs', hhas'⟩ := h'.has
  rcases Nat.lt_trichotomy d d' with hlt | heq | hgt
  · exact absurd hhas (h'.least d hlt scope hs)
  · exact heq
  · exact absurd hhas' (h.least d' hgt scope' hs')

theorem reference?_of_refersTo {e : Expr} {id : NodeId} {name : Token} (h : e.refersTo id name) :
    ∃ sort, (expr e).reference? = some ⟨sort, id, name⟩ := by
  cases e <;> simp only [Expr.refersTo] at h <;> obtain ⟨rfl, rfl⟩ := h <;> exact ⟨_, rfl⟩

/-- The name of a reference is in a scope at this distance; the receiver is looked for in classes
only. -/
def AtDistance (root : Node) (p : Position) (e : Expr) (name : Token) (d : Nat) : Prop :=
  ((∃ i keyword, e = .this i keyword) → root.InClass p) ∧ root.Nearest name.lexeme p d

theorem AtDistance.unique {root : Node} {p : Position} {e : Expr} {name : Token} {d d' : Nat}
    (h : root.AtDistance p e name d) (h' : root.AtDistance p e name d') : d = d' :=
  h.2.unique h'.2

section

variable {program : List Stmt} {distances : Std.HashMap NodeId Nat} {p : Position} {e : Expr}
  {id : NodeId} {name : Token} {d : Nat}

/-- For a reference the distance is recorded that its position gives. If it gives none, what was
recorded before stays. -/
theorem recorded_or (hnodup : ((Stmt.allReferences program).map Reference.id).Nodup)
    (hn : (Node.program program).node? p = some (.expr e)) (he : e.refersTo id name) :
    (Lox.resolve program distances).distances[id]? = some d ↔
      (Node.program program).AtDistance p e name d ∨
        (∀ d', ¬ (Node.program program).AtDistance p e name d') ∧ distances[id]? = some d := by
  obtain ⟨found, -, hmem, hnotes⟩ := program_reports program distances
  obtain ⟨sort, href⟩ := reference?_of_refersTo he
  have hids : ((Node.program program).references.map Reference.id).Nodup := hnodup
  have hrecord : ∀ d', .record id d' ∈ found.map Prod.snd ↔
      (Node.program program).AtDistance p e name d' := by
    intro d'
    constructor
    · intro h
      obtain ⟨⟨q, event⟩, hq, rfl⟩ := List.mem_map.1 h
      cases (hmem q _).1 hq with
      | record hm he' hclass hnearest =>
        obtain ⟨sort', href'⟩ := reference?_of_refersTo he'
        obtain rfl := position_unique hids hn hm href href' rfl
        cases Option.some.inj (hn.symm.trans hm)
        cases href.symm.trans href'
        exact ⟨hclass, hnearest⟩
    · rintro ⟨hclass, hnearest⟩
      exact List.mem_map.2 ⟨(p, .record id d'), (hmem p _).2 (.record hn he hclass hnearest), rfl⟩
  have hlookup : (Lox.resolve program distances).distances[id]? =
      ((found.map Prod.snd).foldl Event.add (Resolution.start distances).notes).2[id]? :=
    congrArg (fun notes : List ResolveError × Std.HashMap NodeId Nat => notes.2[id]?) hnotes
  rw [hlookup]
  by_cases hat : ∃ d', (Node.program program).AtDistance p e name d'
  · obtain ⟨d', hd'⟩ := hat
    rw [Event.foldl_add_snd_of_mem ((hrecord d').2 hd')
      fun d'' hd'' => ((hrecord d'').1 hd'').unique hd', Option.some_inj]
    constructor
    · rintro rfl
      exact .inl hd'
    · rintro (hd | ⟨hnone, -⟩)
      · exact hd'.unique hd
      · exact absurd hd' (hnone d')
  · have hnone : ∀ d', ¬ (Node.program program).AtDistance p e name d' := not_exists.1 hat
    rw [Event.foldl_add_snd_of_none fun d' hd' => hnone d' ((hrecord d').1 hd')]
    exact ⟨fun h => .inr ⟨hnone, h⟩, fun h => (h.resolve_left (hnone d)).2⟩

/-- For a reference whose number is new the distance is recorded that its position gives, and no
other. -/
theorem recorded_iff (hnodup : ((Stmt.allReferences program).map Reference.id).Nodup)
    (hnew : ∀ ref ∈ Stmt.allReferences program, distances[ref.id]? = none)
    (hn : (Node.program program).node? p = some (.expr e)) (he : e.refersTo id name) :
    (Lox.resolve program distances).distances[id]? = some d ↔
      (Node.program program).AtDistance p e name d := by
  obtain ⟨sort, href⟩ := reference?_of_refersTo he
  have hmem : (⟨sort, id, name⟩ : Reference) ∈ (Node.program program).references :=
    mem_references hn href
  have hfree : distances[id]? = none := hnew _ hmem
  rw [recorded_or hnodup hn he, hfree]
  simp

end

/-! ## The receiver -/

end Node

theorem Stmt.AllProper.mem {ss : List Stmt} (h : Stmt.AllProper ss) : ∀ s ∈ ss, s.Proper := by
  induction ss with
  | nil => exact nofun
  | cons s rest ih => exact List.forall_mem_cons.2 ⟨h.1, ih h.2⟩

theorem FunctionDecl.AllProper.mem {ds : List FunctionDecl} (h : FunctionDecl.AllProper ds) :
    ∀ d ∈ ds, d.Proper := by
  induction ds with
  | nil => exact nofun
  | cons d rest ih => exact List.forall_mem_cons.2 ⟨h.1, ih h.2⟩

namespace Node

variable {root n c : Node} {p : Position} {d : Nat} {scope : Position}

/-- Nothing in the node declares the receiver. -/
def Proper : Node → Prop
  | program ss => Stmt.AllProper ss
  | stmt s => s.Proper
  | function decl | method decl => decl.Proper
  | param name => name.lexeme ≠ receiverName
  | expr _ => True

theorem Proper.declared_ne {t : Token} (h : n.Proper) (hd : n.declared? = some t) :
    t.lexeme ≠ receiverName := by
  cases n with
  | stmt s => exact Stmt.Proper.declared_ne h hd
  | param name => cases hd; exact h
  | _ => cases hd

theorem Proper.child (h : n.Proper) (hc : c ∈ n.children) : c.Proper := by
  have stmts {ss : List Stmt} (h : Stmt.AllProper ss) (hc : c ∈ ss.map stmt) : c.Proper := by
    obtain ⟨s, hs, rfl⟩ := List.mem_map.1 hc
    exact h.mem s hs
  have exprs {es : List Expr} (hc : c ∈ es.map expr) : c.Proper := by
    obtain ⟨e, -, rfl⟩ := List.mem_map.1 hc
    trivial
  have body {decl : FunctionDecl} (h : decl.Proper)
      (hc : c ∈ decl.params.map param ++ decl.body.map stmt) : c.Proper := by
    obtain ⟨t, params, body⟩ := decl
    rw [FunctionDecl.Proper] at h
    rcases List.mem_append.1 hc with hc | hc
    · obtain ⟨name, hname, rfl⟩ := List.mem_map.1 hc
      exact h.1 name hname
    · exact stmts h.2 hc
  cases n with
  | program ss => exact stmts h hc
  | stmt s =>
    rw [Proper] at h
    cases s with
    | expression e | print e => cases List.mem_singleton.1 hc; trivial
    | var t init => exact exprs hc
    | block ss =>
      rw [Stmt.Proper] at h
      exact stmts h hc
    | cond test thenPart elsePart =>
      simp only [children, List.mem_cons] at hc
      cases elsePart with
      | none =>
        rw [Stmt.Proper] at h
        rcases hc with rfl | rfl | hc
        · trivial
        · exact h.2
        · cases hc
      | some s =>
        rw [Stmt.Proper] at h
        rcases hc with rfl | rfl | hc
        · trivial
        · exact h.1.2
        · cases List.mem_singleton.1 hc
          exact h.2.2
    | «while» test s =>
      rw [Stmt.Proper] at h
      simp only [children, List.mem_cons, List.not_mem_nil, or_false] at hc
      rcases hc with rfl | rfl
      · trivial
      · exact h.2
    | function decl =>
      rw [Stmt.Proper] at h
      cases List.mem_singleton.1 hc
      exact h.2
    | ret keyword value => exact exprs hc
    | «class» t ds =>
      rw [Stmt.Proper] at h
      obtain ⟨d, hd, rfl⟩ := List.mem_map.1 hc
      exact h.2.mem d hd
  | function decl | method decl =>
    obtain ⟨t, params, ss⟩ := decl
    exact body h hc
  | expr e =>
    have he := isExpr_of_mem_children hc (.inl rfl)
    cases c with
    | expr e => trivial
    | _ => cases he
  | param t => cases hc

theorem Proper.node? (h : root.Proper) (hn : root.node? p = some n) : n.Proper := by
  induction p generalizing root with
  | nil => cases hn; exact h
  | cons i p ih =>
    rw [Node.node?] at hn
    split at hn
    next child hc => exact ih (h.child (List.mem_of_getElem? hc)) hn
    next => cases hn

/-- Only the scopes of classes have the receiver. -/
theorem Proper.has_receiver_iff (h : root.Proper) : root.Has scope receiverName p ↔
    ((root.node? scope).any isClass) = true := by
  have hnot : ¬ root.DeclaredIn scope receiverName p := by
    rintro ⟨q, -, n, hn, t, ht, hname, -⟩
    exact (h.node? hn).declared_ne ht hname
  rw [Has, or_iff_right hnot, Option.any_eq_true]
  simp

theorem Proper.nearest_receiver_iff (h : root.Proper) : root.Nearest receiverName p d ↔
    (root.scopesAround p).findIdx? (fun q => (root.node? q).any isClass) = some d := by
  rw [List.findIdx?_eq_some_iff_getElem]
  constructor
  · rintro ⟨⟨scope, hs, hhas⟩, hleast⟩
    obtain ⟨hd, rfl⟩ := List.getElem?_eq_some_iff.1 hs
    refine ⟨hd, h.has_receiver_iff.1 hhas, fun d' hd' => ?_⟩
    exact mt h.has_receiver_iff.2 (hleast d' hd' _ (List.getElem?_eq_getElem _))
  · rintro ⟨hd, hclass, hleast⟩
    refine ⟨⟨_, List.getElem?_eq_getElem hd, h.has_receiver_iff.2 hclass⟩, ?_⟩
    intro d' hd' scope hs
    obtain ⟨hlt, rfl⟩ := List.getElem?_eq_some_iff.1 hs
    exact mt h.has_receiver_iff.1 (hleast d' hd')

/-- In the body of a class a class is one of the scopes around. -/
theorem exists_class_of_inClass (h : root.InClass p) :
    ∃ d, (root.scopesAround p).findIdx? (fun q => (root.node? q).any isClass) = some d := by
  obtain ⟨q, hq, n, hn, hclass⟩ := h
  have hmem : q ∈ root.scopesAround p := by
    refine List.mem_filter.2 ⟨hq, ?_⟩
    rw [hn]
    cases n with
    | stmt s => cases s <;> first | rfl | cases hclass
    | _ => cases hclass
  rw [← Option.isSome_iff_exists, List.findIdx?_isSome, List.any_eq_true]
  exact ⟨q, hmem, by rw [hn]; exact hclass⟩

end Node

/-- For every variable and every assignment the number of the nearest scope is recorded that has the
name in front of it, and for every receiver in a class that of its innermost class. Nothing is
recorded for a name that no scope around it has, nor for a receiver outside of classes. A receiver
has its name if the tokens are spelled as those of a source are. -/
theorem distances_lexical (tokens : List Token) (firstId : NodeId)
    (distances : Std.HashMap NodeId Nat) (hnew : ∀ id, firstId ≤ id → distances[id]? = none) :
    let statements := (Grammar.parse tokens firstId).statements
    let program := Node.program statements
    let recorded := (resolve statements distances).distances
    (∀ p id name, (program.node? p = some (.expr (.variable id name)) ∨
        ∃ value, program.node? p = some (.expr (.assign id name value))) →
      ∀ d, recorded[id]? = some d ↔ program.Nearest name.lexeme p d) ∧
    (∀ p id keyword, program.node? p = some (.expr (.this id keyword)) →
      (program.InClass p → (∀ t ∈ tokens, WellSpelled t) → ∃ d, recorded[id]? = some d ∧
        (program.scopesAround p).findIdx? (fun q => (program.node? q).any Node.isClass) = some d) ∧
      (¬ program.InClass p → recorded[id]? = none)) := by
  intro statements program recorded
  obtain ⟨us, hus, hprogram, hspan⟩ := Grammar.parse_salvages tokens firstId
  have hnone : ∀ ref ∈ Stmt.allReferences statements, distances[ref.id]? = none :=
    fun ref href => hnew ref.id (hspan.bounds ref href).1
  have hrecorded {p : Position} {e : Expr} (hn : program.node? p = some (.expr e)) {id : NodeId}
      {name : Token} (he : e.refersTo id name) (d : Nat) :=
    Node.recorded_iff hspan.nodup hnone hn he (d := d)
  refine ⟨fun p id name hn d => ?_, fun p id keyword hn => ⟨fun hclass hspelled => ?_, ?_⟩⟩
  · rcases hn with hn | ⟨value, hn⟩
    · exact (hrecorded hn ⟨rfl, rfl⟩ d).trans (and_iff_right nofun)
    · exact (hrecorded hn ⟨rfl, rfl⟩ d).trans (and_iff_right nofun)
  · have hspelled : ∀ t ∈ us, WellSpelled t := fun t ht =>
      hspelled t ((List.takeWhile_sublist _).subset (hus.subset ht))
    obtain ⟨hproper, hreferences⟩ := Ebnf.wellFormed_declarations hprogram hspelled
    have hmem : (⟨.receiver, id, keyword⟩ : Reference) ∈ program.references :=
      Node.mem_references hn rfl
    have hname : keyword.lexeme = receiverName := (hreferences _ hmem).1 rfl
    have hprogram : program.Proper := hproper
    obtain ⟨d, hd⟩ := Node.exists_class_of_inClass hclass
    have hnearest := hprogram.nearest_receiver_iff.2 hd
    exact ⟨d, (hrecorded hn ⟨rfl, rfl⟩ d).2 ⟨fun _ => hclass, hname ▸ hnearest⟩, hd⟩
  · intro hclass
    rw [Option.eq_none_iff_forall_not_mem]
    exact fun d hd => hclass (((hrecorded hn ⟨rfl, rfl⟩ d).1 hd).1 ⟨_, _, rfl⟩)

/-- `{ var a; class A { m() { this; a; } } }` -/
def methodInBlock : List UInt8 := Utf8.encode "\x7b var a; class A \x7b m() \x7b this; a; \x7d \x7d \x7d"

theorem statements_methodInBlock :
    (Grammar.parse (Source.scan methodInBlock).1 0).statements =
      [.block [.var (.identifier "a" 1) none, .class (.identifier "A" 1)
        [.mk (.identifier "m" 1) [] [.expression (.this 0 ⟨.symbol .kwThis, "this", 1⟩),
          .expression (.variable 1 (.identifier "a" 1))]]]] := by
  with_unfolding_all rfl

theorem distances_lexical_methodInBlock :
    let statements := (Grammar.parse (Source.scan methodInBlock).1 0).statements
    let program := Node.program statements
    let recorded := (resolve statements ∅).distances
    (∀ id, 0 ≤ id → (∅ : Std.HashMap NodeId Nat)[id]? = none) ∧
      program.node? [0, 1, 0, 0, 0] = some (.expr (.this 0 ⟨.symbol .kwThis, "this", 1⟩)) ∧
      recorded[0]? = some 1 ∧
      program.node? [0, 1, 0, 1, 0] = some (.expr (.variable 1 (.identifier "a" 1))) ∧
      recorded[1]? = some 2 ∧ program.Nearest "a" [0, 1, 0, 1, 0] 2 := by
  have hnew : ∀ id, 0 ≤ id → (∅ : Std.HashMap NodeId Nat)[id]? = none := fun _ _ =>
    Std.HashMap.getElem?_empty
  obtain ⟨hnames, hreceivers⟩ :=
    distances_lexical (Source.scan methodInBlock).1 0 ∅ hnew
  rw [statements_methodInBlock] at hnames hreceivers ⊢
  intro statements program recorded
  have hrecorded : recorded = ((∅ : Std.HashMap NodeId Nat).insert 0 1).insert 1 2 := by
    with_unfolding_all rfl
  have hthis : program.node? [0, 1, 0, 0, 0] =
    some (.expr (.this 0 ⟨.symbol .kwThis, "this", 1⟩)) := rfl
  have ha : program.node? [0, 1, 0, 1, 0] = some (.expr (.variable 1 (.identifier "a" 1))) := rfl
  have hclass : program.InClass [0, 1, 0, 0, 0] := ⟨[0, 1], by decide, _, rfl, rfl⟩
  obtain ⟨d, hd, hinnermost⟩ :=
    (hreceivers [0, 1, 0, 0, 0] 0 _ hthis).1 hclass Source.wellSpelled_scan
  cases hinnermost
  have ha' : recorded[1]? = some 2 := by rw [hrecorded, Std.HashMap.getElem?_insert_self]
  exact ⟨hnew, hthis, hd, ha, ha', (hnames _ 1 _ (.inl ha) 2).1 ha'⟩

end Lox
