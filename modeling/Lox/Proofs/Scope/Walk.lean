/-
The walk over whole nodes. It enters a node, walks over the nodes in it and leaves
it, and so it comes to each position knowing what is around it, and leaves behind
what occurs at the positions that it came to. For a program this means that the
errors of the resolver are the violations of its rules, one for each node that
breaks one.
-/
import Lox.Proofs.Scope.Violation

namespace Lox

namespace Node

variable {root n : Node} {p : Position} {i : Nat} {r r' r'' : Resolution} {event : Event}

/-- The walk over nodes from left to right. -/
def resolveAll (ns : List Node) (r : Resolution) : Resolution :=
  ns.foldl (fun r n => n.resolve r) r

theorem resolveAll_exprs (es : List Expr) (r : Resolution) :
    resolveAll (es.map expr) r = Expr.resolveAll es r := by
  induction es generalizing r with
  | nil => rfl
  | cons e rest ih => exact ih (e.resolve r)

theorem resolveAll_stmts (ss : List Stmt) (r : Resolution) :
    resolveAll (ss.map stmt) r = Stmt.resolveAll ss r := by
  induction ss generalizing r with
  | nil => rfl
  | cons s rest ih => exact ih (s.resolve r)

theorem resolveAll_methods (ds : List FunctionDecl) (r : Resolution) :
    resolveAll (ds.map method) r = FunctionDecl.resolveMethods ds r := by
  induction ds generalizing r with
  | nil => rfl
  | cons d rest ih => exact ih ((method d).resolve r)

theorem resolveAll_body (params : List Token) (body : List Stmt) (r : Resolution) :
    resolveAll (params.map param ++ body.map stmt) r =
      Stmt.resolveAll body (r.addParams params) := by
  have hparams : resolveAll (params.map param) r = r.addParams params := List.foldl_map
  rw [resolveAll, List.foldl_append]
  exact (congrArg (resolveAll (body.map stmt)) hparams).trans (resolveAll_stmts body _)

/-- The walk enters a node, walks over the nodes in it and leaves it. Only an assignment to a
property has its parts the other way round. -/
theorem resolve_eq (hset : ∀ object name value, n ≠ .expr (.set object name value))
    (r : Resolution) : n.resolve r = n.leave r (resolveAll n.children (n.enter r)) := by
  cases n with
  | program ss => exact (resolveAll_stmts ss r).symm
  | stmt s =>
    cases s with
    | var t init => cases init <;> rfl
    | block body =>
      simp only [children, resolveAll_stmts]
      rfl
    | cond test thenPart elsePart => cases elsePart <;> rfl
    | ret keyword value => cases value <;> rfl
    | «class» t ds =>
      simp only [children, resolveAll_methods]
      rfl
    | _ => rfl
  | expr e =>
    cases e with
    | call callee t args => exact (resolveAll_exprs args (callee.resolve r)).symm
    | set object name value => exact absurd rfl (hset object name value)
    | _ => rfl
  | function decl =>
    obtain ⟨t, params, body⟩ := decl
    simp only [children, resolveAll_body]
    rfl
  | method decl =>
    obtain ⟨t, params, body⟩ := decl
    simp only [children, resolveAll_body]
    rfl
  | param t => rfl

/-- What occurs at a position and at the positions in it. -/
def Below (root : Node) (p : Position) (q : Position) (event : Event) : Prop :=
  p <+: q ∧ root.Occurs q event

/-- The walk over a node, wherever it stands, comes to the next position and leaves behind what
occurs on the way. -/
def Walks (root n : Node) : Prop :=
  ∀ {p i r}, root.node? (p ++ [i]) = some n → root.Seen (p ++ [i]) r →
    root.Seen (p ++ [i + 1]) (n.resolve r) ∧ Reports (Below root (p ++ [i])) r (n.resolve r)

/-- What occurs in the branches of a node from this one on. -/
def From (root : Node) (p : Position) (i : Nat) (q : Position) (event : Event) : Prop :=
  (∃ j, i ≤ j ∧ p ++ [j] <+: q) ∧ root.Occurs q event

theorem prefix_concat_inj {p q : Position} {i j : Nat} (hi : p ++ [i] <+: q) (hj : p ++ [j] <+: q) :
    i = j := by
  obtain ⟨x, rfl⟩ := hi
  obtain ⟨y, hy⟩ := hj
  simp only [List.append_assoc, List.append_cancel_left_eq, List.singleton_append,
    List.cons.injEq] at hy
  exact hy.1.symm

theorem from_iff {q : Position} : From root p i q event ↔
    Below root (p ++ [i]) q event ∨ From root p (i + 1) q event := by
  constructor
  · rintro ⟨⟨j, hij, hq⟩, h⟩
    rcases Nat.eq_or_lt_of_le hij with rfl | hlt
    · exact .inl ⟨hq, h⟩
    · exact .inr ⟨⟨j, hlt, hq⟩, h⟩
  · rintro (⟨hq, h⟩ | ⟨⟨j, hij, hq⟩, h⟩)
    · exact ⟨⟨i, Nat.le_refl i, hq⟩, h⟩
    · exact ⟨⟨j, Nat.le_of_succ_le hij, hq⟩, h⟩

/-- Nothing occurs in the branches behind the last one. -/
theorem not_from {q : Position} (hn : root.node? p = some n) (hi : n.children.length ≤ i) :
    ¬ From root p i q event := by
  rintro ⟨⟨j, hj, hq⟩, ho⟩
  obtain ⟨c, hc⟩ := ho.node?
  obtain ⟨d, hd⟩ := node?_of_prefix hc hq
  rw [node?_concat hn, List.getElem?_eq_none (Nat.le_trans hi hj)] at hd
  cases hd

/-- The walk over the branches of a node from one of them on. -/
theorem walks_branches (hn : root.node? p = some n) (ih : ∀ c ∈ n.children, Walks root c) :
    ∀ (cs before : List Node) (r : Resolution), n.children = before ++ cs →
      root.Seen (p ++ [before.length]) r →
      root.Seen (p ++ [n.children.length]) (resolveAll cs r) ∧
        Reports (From root p before.length) r (resolveAll cs r)
  | [], before, r, hcs, h => by
    rw [List.append_nil] at hcs
    exact ⟨hcs ▸ h, .silent rfl fun q event => not_from hn (hcs ▸ Nat.le_refl _)⟩
  | c :: cs, before, r, hcs, h => by
    have hc : root.node? (p ++ [before.length]) = some c := by
      rw [node?_concat hn, hcs]
      simp
    have hstep := ih c (hcs ▸ List.mem_append_right _ (List.mem_cons_self ..)) hc h
    have hlength : (before ++ [c]).length = before.length + 1 := by simp
    have hrest := walks_branches hn ih cs (before ++ [c]) (c.resolve r) (by simp [hcs])
      (hlength ▸ hstep.1)
    rw [hlength] at hrest
    refine ⟨hrest.1, hstep.2.trans hrest.2 ?_ fun q event => from_iff⟩
    rintro q event ⟨hq, -⟩ ⟨⟨j, hj, hq'⟩, -⟩
    cases prefix_concat_inj hq hq'
    exact Nat.not_succ_le_self _ hj

theorem below_iff {q : Position} :
    Below root p q event ↔ Own root p q event ∨ From root p 0 q event := by
  constructor
  · rintro ⟨⟨x, rfl⟩, h⟩
    cases x with
    | nil => exact .inl ⟨List.append_nil p, by rwa [List.append_nil] at h⟩
    | cons j x => exact .inr ⟨⟨j, Nat.zero_le j, x, by simp⟩, h⟩
  · rintro (⟨rfl, h⟩ | ⟨⟨j, -, hq⟩, h⟩)
    · exact ⟨List.prefix_rfl, h⟩
    · exact ⟨(List.prefix_append p [j]).trans hq, h⟩

theorem own_not_from {q : Position} (h : Own root p q event) : ¬ From root p i q event := by
  rintro ⟨⟨j, -, hq⟩, -⟩
  have := (h.1 ▸ hq).length_le
  rw [List.length_append, List.length_singleton] at this
  omega

/-- The walk over an assignment to a property: the value comes first, but neither part of it changes
what is known. -/
theorem walks_set {object value : Expr} {name : Token} (hobject : Walks root (.expr object))
    (hvalue : Walks root (.expr value)) : Walks root (.expr (.set object name value)) := by
  intro p i r hn h
  have hc (j : Nat) := node?_concat hn j
  have hseen (e : Expr) {q : Position} {r : Resolution} (h : root.Seen q r) :
      root.Seen q (e.resolve r) := h.congr (e.resolve_scopes r) (e.resolve_context r)
  have h₀ : root.Seen (p ++ [i] ++ [0]) r := h.first hn
  have h₁ : root.Seen (p ++ [i] ++ [1]) r :=
    (hobject (hc 0) h₀).1.congr (object.resolve_scopes r).symm (object.resolve_context r).symm
  have hv := hvalue (hc 1) h₁
  have ho := hobject (hc 0) (hseen value h₀)
  refine ⟨h.next hn (hseen object (hseen value ?_)), ?_⟩
  · exact hv.1.congr (value.resolve_scopes r).symm (value.resolve_context r).symm
  · refine hv.2.trans ho.2 ?_ fun q event => ?_
    · rintro q event ⟨hq, -⟩ ⟨hq', -⟩
      cases prefix_concat_inj hq hq'
    · have hown : ¬ Own root (p ++ [i]) q event := fun ho =>
        not_occurs hn rfl nofun (by rintro _ id name ⟨rfl⟩ h; exact h) ho.2
      rw [below_iff, or_iff_right hown, from_iff, from_iff,
        or_iff_left (not_from hn (Nat.le_refl 2))]
      exact or_comm

/-- The walk over any node. -/
theorem walks (root n : Node) : Walks root n := by
  induction n using of_children with
  | h n ih =>
    intro p i r hn h
    by_cases hset : ∃ object name value, n = .expr (.set object name value)
    · obtain ⟨object, name, value, rfl⟩ := hset
      exact walks_set (ih _ (by simp [children])) (ih _ (by simp [children])) hn h
    · have hset : ∀ object name value, n ≠ .expr (.set object name value) :=
        fun object name value hn => hset ⟨object, name, value, hn⟩
      obtain ⟨hinside, hreports⟩ :=
        walks_branches hn ih n.children [] (n.enter r) rfl (h.first hn)
      rw [resolve_eq hset]
      refine ⟨h.next hn hinside, ?_⟩
      by_cases hassign : ∃ id name value, n = .expr (.assign id name value)
      · -- The target of an assignment is looked up behind the value.
        obtain ⟨id, name, value, rfl⟩ := hassign
        have hseen : root.Seen (p ++ [i]) (value.resolve r) :=
          h.congr (value.resolve_scopes r) (value.resolve_context r)
        refine Reports.trans hreports (hseen.record_reports id name) ?_ fun q event => ?_
        · rintro q event hf ⟨hq, ho⟩
          exact own_not_from ⟨hq, (occurs_assign hn).2 ho⟩ hf
        · rw [below_iff, Own, occurs_assign hn]
          exact or_comm
      · have hassign : ∀ id name value, n ≠ .expr (.assign id name value) :=
          fun id name value hn => hassign ⟨id, name, value, hn⟩
        exact ((h.enter_reports hn hassign).trans hreports (fun q event => own_not_from)
          fun q event => below_iff).of_notes (leave_notes hassign r _)

/-- The walk over a program leaves behind what occurs in it. -/
theorem program_reports (program : List Stmt) (distances : Std.HashMap NodeId Nat) :
    Reports (Occurs (.program program)) (.start distances) (Lox.resolve program distances) := by
  have hn : (Node.program program).node? [] = some (.program program) := rfl
  have h := (walks_branches hn (fun c _ => walks _ c) (Node.program program).children [] _ rfl
    ((seen_start program distances).first hn)).2
  rw [show (Node.program program).children = program.map stmt from rfl, resolveAll_stmts] at h
  refine Reports.congr h fun q event => ?_
  have hown : ¬ Own (.program program) [] q event := fun ho =>
    not_occurs hn rfl nofun nofun ho.2
  have hbelow : Below (.program program) [] q event ↔ _ := below_iff
  rw [or_iff_right hown] at hbelow
  exact ⟨fun ho => hbelow.1 ⟨List.nil_prefix, ho⟩, fun hf => (hbelow.2 hf).2⟩

end Node

/-- The error that an event is. -/
def Event.error? : Event → Option ResolveError
  | .error e => some e
  | .record .. => none

theorem Event.foldl_add_fst (events : List Event)
    (notes : List ResolveError × Std.HashMap NodeId Nat) :
    (events.foldl Event.add notes).1 = notes.1 ++ events.filterMap Event.error? := by
  induction events generalizing notes with
  | nil => simp
  | cons event rest ih =>
    rw [List.foldl_cons, ih]
    cases event with
    | error e => rw [List.filterMap_cons_some (by rfl), add, List.append_assoc]; rfl
    | record id d => rw [List.filterMap_cons_none rfl, add]

/-- The errors of the resolver are those of the nodes that break a rule, one for each of them, and
it fails exactly if there are any. -/
theorem resolve_violations (program : List Stmt) (distances : Std.HashMap NodeId Nat) :
    ∃ found : List (Position × ResolveError), (found.map Prod.fst).Nodup ∧
      (∀ p e, (p, e) ∈ found ↔ (Node.program program).Violates p e) ∧
      (resolve program distances).errors.toList = found.map Prod.snd ∧
      ((resolve program distances).failed = true ↔
        ∃ p e, (Node.program program).Violates p e) := by
  obtain ⟨events, hnodup, hmem, hnotes⟩ := Node.program_reports program distances
  obtain ⟨found, hfound⟩ : ∃ found : List (Position × ResolveError),
      found = events.filterMap fun x => x.2.error?.map (Prod.mk x.1) := ⟨_, rfl⟩
  have hmem : ∀ p e, (p, e) ∈ found ↔ (Node.program program).Violates p e := by
    intro p e
    rw [hfound, List.mem_filterMap]
    constructor
    · rintro ⟨⟨q, event⟩, hx, he⟩
      cases event with
      | record => cases he
      | error e' =>
        cases he
        cases (hmem _ (.error _)).1 hx with
        | error h => exact h
    · exact fun h => ⟨(p, .error e), (hmem p _).2 (.error h), rfl⟩
  have hpairs : found.Nodup := by
    rw [hfound]
    refine hnodup.filterMap ?_
    rintro ⟨q, event⟩ ⟨q', event'⟩ x hx hx'
    cases event with
    | record => cases hx
    | error e =>
      cases event' with
      | record => cases hx'
      | error e' =>
        cases hx
        cases hx'
        rfl
  have herrors : (resolve program distances).errors.toList = found.map Prod.snd := by
    have h := congrArg Prod.fst hnotes
    rw [Event.foldl_add_fst] at h
    refine h.trans ?_
    rw [hfound, List.filterMap_map, List.map_filterMap]
    simp [Resolution.notes, Resolution.start, Function.comp_def]
  refine ⟨found, ?_, hmem, herrors, ?_⟩
  · refine hpairs.map_on ?_
    rintro ⟨p, e⟩ hx ⟨q, e'⟩ hx' rfl
    rw [((hmem p e).1 hx).unique ((hmem p e').1 hx')]
  · have hclean : (resolve program distances).failed = false ↔ _ := resolve_failed
    rw [← Bool.not_eq_false, hclean, Resolution.Clean, ← Array.toList_eq_nil_iff, herrors,
      List.map_eq_nil_iff, List.eq_nil_iff_forall_not_mem]
    simp only [not_forall, not_not, Prod.exists, hmem]

end Lox
