/-
Programs by position. A node is found by the numbers of the branches that lead to
it. Positions are in the order of the text, and a node comes before the nodes in
it. What is around a position, and what was declared in front of it, is said in
terms of positions alone, and without a walk over the program.
-/
import Lox.Proofs.Scope.Shape
import Mathlib.Data.List.Induction
import Mathlib.Data.List.Nodup

namespace Lox

/-- The branches that lead to a node. -/
abbrev Position := List Nat

namespace Position

/-- The positions around a position, innermost first. -/
def around (p : Position) : List Position := (List.range p.length).reverse.map fun n => p.take n

@[simp] theorem around_nil : around [] = [] := rfl

@[simp] theorem around_concat (p : Position) (i : Nat) : around (p ++ [i]) = p :: around p := by
  rw [around, List.length_append, List.length_singleton, List.range_succ, List.reverse_append,
    List.reverse_singleton, List.singleton_append, List.map_cons, List.take_left]
  refine congrArg (p :: ·) (List.map_congr_left fun n hn => ?_)
  rw [List.mem_reverse, List.mem_range] at hn
  exact List.take_append_of_le_length (Nat.le_of_lt hn)

theorem around_next (p : Position) (i j : Nat) : around (p ++ [i]) = around (p ++ [j]) := by
  rw [around_concat, around_concat]

theorem mem_around {p q : Position} : q ∈ around p ↔ q <+: p ∧ q ≠ p := by
  induction p using List.reverseRecOn with
  | nil => simp [around]
  | append_singleton p i ih =>
    rw [around_concat, List.mem_cons, ih, List.prefix_concat_iff]
    constructor
    · rintro (rfl | ⟨hq, -⟩)
      · exact ⟨.inr List.prefix_rfl, by simp⟩
      · refine ⟨.inr hq, ?_⟩
        rintro rfl
        have hle := hq.length_le
        rw [List.length_append, List.length_singleton] at hle
        omega
    · rintro ⟨h | h, hne⟩
      · exact absurd h hne
      · by_cases hq : q = p
        · exact .inl hq
        · exact .inr ⟨h, hq⟩

/-- What lies in front of a branch: what lies in front of the node, the node, and the branches
before this one. -/
theorem lt_concat {p q : Position} {i : Nat} :
    q < p ++ [i] ↔ q < p ∨ q = p ∨ ∃ j < i, ∃ x, q = p ++ j :: x := by
  induction p generalizing q with
  | nil =>
    cases q with
    | nil => simp
    | cons j x =>
      rw [List.nil_append, List.cons_lt_cons_iff]
      simp [List.not_lt_nil]
  | cons k p ih =>
    cases q with
    | nil => simp
    | cons j x =>
      rw [List.cons_append, List.cons_lt_cons_iff, List.cons_lt_cons_iff, ih]
      simp only [List.cons_append, List.cons.injEq]
      constructor
      · rintro (h | ⟨rfl, h | rfl | ⟨i', hi, y, rfl⟩⟩)
        · exact .inl (.inl h)
        · exact .inl (.inr ⟨rfl, h⟩)
        · exact .inr (.inl ⟨rfl, rfl⟩)
        · exact .inr (.inr ⟨i', hi, y, rfl, rfl⟩)
      · rintro ((h | ⟨rfl, h⟩) | ⟨rfl, rfl⟩ | ⟨i', hi, y, rfl, rfl⟩)
        · exact .inl h
        · exact .inr ⟨rfl, .inl h⟩
        · exact .inr ⟨rfl, .inr (.inl rfl)⟩
        · exact .inr ⟨rfl, .inr (.inr ⟨i', hi, y, rfl⟩)⟩

/-- No position comes before what is around it. -/
theorem not_lt_of_prefix {p q : Position} (h : p <+: q) : ¬ q < p := by
  obtain ⟨x, rfl⟩ := h
  exact List.not_lt.2 (by simpa using List.le_append_left)

end Position

/-- A node of a program. -/
inductive Node
  | program (ss : List Stmt)
  | stmt (s : Stmt)
  | expr (e : Expr)
  | function (decl : FunctionDecl)
  | method (decl : FunctionDecl)
  | param (name : Token)

namespace Node

/-- The nodes directly in a node, in the order of the text. The increment of a `for` loop, which the
text has in front of the body, declares nothing and neither does the body in the scope around it. -/
def children : Node → List Node
  | program ss => ss.map stmt
  | stmt (.expression e) | stmt (.print e) => [expr e]
  | stmt (.var _ init) => init.toList.map expr
  | stmt (.block body) => body.map stmt
  | stmt (.cond test thenPart elsePart) => expr test :: stmt thenPart :: elsePart.toList.map stmt
  | stmt (.while test body) => [expr test, stmt body]
  | stmt (.function decl) => [function decl]
  | stmt (.ret _ value) => value.toList.map expr
  | stmt (.class _ methods) => methods.map method
  | function (.mk _ params body) | method (.mk _ params body) => params.map param ++ body.map stmt
  | expr (.grouping e) | expr (.unary _ e) | expr (.get e _) | expr (.assign _ _ e) => [expr e]
  | expr (.binary left _ right) | expr (.logical left _ right) | expr (.set left _ right) =>
    [expr left, expr right]
  | expr (.call callee _ args) => expr callee :: args.map expr
  | expr (.literal _) | expr (.variable ..) | expr (.this ..) | param _ => []

/-- Whether the nodes in a node are in a scope of its own. -/
def opensScope : Node → Bool
  | stmt (.block _) | stmt (.class ..) | function _ | method _ => true
  | _ => false

/-- The name that a node declares in the scope it stands in. -/
def declared? : Node → Option Token
  | stmt s => s.declared?
  | param name => some name
  | _ => none

def isClass : Node → Bool
  | stmt (.class ..) => true
  | _ => false

def isFunction : Node → Bool
  | function _ | method _ => true
  | _ => false

/-- The node at a position. -/
def node? (root : Node) : Position → Option Node
  | [] => some root
  | i :: p => match root.children[i]? with
    | some child => child.node? p
    | none => none

section

variable (root : Node)

/-- The scopes around a position, innermost first, each by the position of the node that opens it.
The global scope is not one of them. -/
def scopesAround (p : Position) : List Position :=
  p.around.filter fun q => (root.node? q).any opensScope

/-- The innermost function or method around a position. -/
def functionAround (p : Position) : Option Node :=
  p.around.findSome? fun q => (root.node? q).filter isFunction

/-- The position is in the body of a class. -/
def InClass (p : Position) : Prop := ∃ q ∈ p.around, ∃ n, root.node? q = some n ∧ n.isClass = true

/-- In front of the position the name was declared directly in this scope. -/
def DeclaredIn (scope : Position) (name : String) (p : Position) : Prop :=
  ∃ q < p, ∃ n, root.node? q = some n ∧ ∃ t, n.declared? = some t ∧ t.lexeme = name ∧
    (root.scopesAround q).head? = some scope

/-- At the position this scope has the name. That of a class has the receiver's from the start. -/
def Has (scope : Position) (name : String) (p : Position) : Prop :=
  root.DeclaredIn scope name p ∨
    name = receiverName ∧ ∃ c, root.node? scope = some c ∧ c.isClass = true

/-- The position is in the initializer of a variable of this scope that has this name, and which is
the first to have it. -/
def Pending (scope : Position) (name : String) (p : Position) : Prop :=
  ∃ q ∈ p.around, ∃ t init, root.node? q = some (.stmt (.var t init)) ∧ t.lexeme = name ∧
    (root.scopesAround q).head? = some scope ∧ ¬ root.DeclaredIn scope name q

end

/-! ## Nodes and their branches -/

variable {root n : Node} {p : Position} {i : Nat}

theorem node?_append (root : Node) (p q : Position) :
    root.node? (p ++ q) = (root.node? p).bind (·.node? q) := by
  induction p generalizing root with
  | nil => rfl
  | cons i p ih =>
    rw [List.cons_append, node?, node?]
    cases root.children[i]? with
    | none => rfl
    | some child => exact ih child

theorem node?_concat (h : root.node? p = some n) (i : Nat) :
    root.node? (p ++ [i]) = n.children[i]? := by
  rw [node?_append, h, Option.bind_some, node?]
  cases n.children[i]? <;> rfl

/-- The node around a node. -/
theorem parent_of_node? {c : Node} (h : root.node? (p ++ [i]) = some c) :
    ∃ n, root.node? p = some n ∧ n.children[i]? = some c := by
  cases hn : root.node? p with
  | none => rw [node?_append, hn] at h; cases h
  | some n => exact ⟨n, rfl, node?_concat hn i ▸ h⟩

theorem node?_of_prefix {q : Position} {c : Node} (h : root.node? q = some c) (hp : p <+: q) :
    ∃ n, root.node? p = some n := by
  obtain ⟨x, rfl⟩ := hp
  rw [node?_append] at h
  cases hn : root.node? p with
  | none => rw [hn] at h; cases h
  | some n => exact ⟨n, rfl⟩

theorem scopesAround_concat (h : root.node? p = some n) (i : Nat) :
    root.scopesAround (p ++ [i]) =
      if n.opensScope then p :: root.scopesAround p else root.scopesAround p := by
  rw [scopesAround, Position.around_concat, List.filter_cons, h]
  rfl

theorem functionAround_concat (h : root.node? p = some n) (i : Nat) :
    root.functionAround (p ++ [i]) = if n.isFunction then some n else root.functionAround p := by
  rw [functionAround, Position.around_concat, List.findSome?_cons, h]
  cases hn : n.isFunction <;> simp [Option.filter, hn, functionAround]

theorem inClass_concat (h : root.node? p = some n) (i : Nat) :
    root.InClass (p ++ [i]) ↔ n.isClass = true ∨ root.InClass p := by
  simp only [InClass, Position.around_concat, List.mem_cons]
  constructor
  · rintro ⟨q, rfl | hq, m, hm, hc⟩
    · exact .inl (Option.some.inj (h.symm.trans hm) ▸ hc)
    · exact .inr ⟨q, hq, m, hm, hc⟩
  · rintro (hc | ⟨q, hq, hm⟩)
    · exact ⟨p, .inl rfl, n, h, hc⟩
    · exact ⟨q, .inr hq, hm⟩

theorem mem_scopesAround {q : Position} (h : q ∈ root.scopesAround p) : q <+: p ∧ q ≠ p :=
  Position.mem_around.1 (List.mem_of_mem_filter h)

theorem head_scopesAround {q : Position} (h : (root.scopesAround p).head? = some q) :
    q <+: p ∧ q ≠ p := mem_scopesAround (List.mem_of_mem_head? h)

/-- Scopes around a position are further and further out. -/
theorem scopesAround_nodup (root : Node) (p : Position) : (root.scopesAround p).Nodup := by
  refine List.Nodup.filter _ ?_
  induction p using List.reverseRecOn with
  | nil => exact .nil
  | append_singleton p i ih =>
    rw [Position.around_concat]
    exact .cons (fun hp => (Position.mem_around.1 hp).2 rfl) ih

/-! ## Induction over nodes -/

theorem sizeOf_lt_of_mem_map {α : Type} [SizeOf α] {f : α → Node} (hf : ∀ a, sizeOf (f a) = 1 + sizeOf a)
    {as : List α} {c : Node} (h : c ∈ as.map f) : sizeOf c < 1 + sizeOf as := by
  obtain ⟨a, ha, rfl⟩ := List.mem_map.1 h
  have := List.sizeOf_lt_of_mem ha
  rw [hf]
  omega

theorem sizeOf_children {c : Node} (h : c ∈ n.children) : sizeOf c < sizeOf n := by
  have stmts {ss : List Stmt} (h : c ∈ ss.map stmt) := sizeOf_lt_of_mem_map (fun _ => rfl) h
  have exprs {es : List Expr} (h : c ∈ es.map expr) := sizeOf_lt_of_mem_map (fun _ => rfl) h
  have methods {ds : List FunctionDecl} (h : c ∈ ds.map method) :=
    sizeOf_lt_of_mem_map (fun _ => rfl) h
  have params {ts : List Token} (h : c ∈ ts.map param) := sizeOf_lt_of_mem_map (fun _ => rfl) h
  have option {e? : Option Expr} (h : c ∈ e?.toList.map expr) : sizeOf c < 1 + sizeOf e? := by
    cases e? with
    | none => cases h
    | some e =>
      cases List.mem_singleton.1 h
      simp only [expr.sizeOf_spec, Option.some.sizeOf_spec]
      omega
  cases n with
  | program ss => simpa using stmts h
  | stmt s =>
    cases s with
    | expression e | print e => cases List.mem_singleton.1 h; simp
    | var t init => have := option h; simp; omega
    | block body => have := stmts h; simp; omega
    | cond test thenPart elsePart =>
      simp only [children, List.mem_cons] at h
      rcases h with rfl | rfl | h
      · simp; omega
      · simp; omega
      · cases elsePart with
        | none => cases h
        | some s => cases List.mem_singleton.1 h; simp; omega
    | «while» test body =>
      simp only [children, List.mem_cons, List.not_mem_nil, or_false] at h
      rcases h with rfl | rfl <;> simp <;> omega
    | function decl => cases List.mem_singleton.1 h; simp
    | ret keyword value => have := option h; simp; omega
    | «class» t ds => have := methods h; simp; omega
  | function decl | method decl =>
    obtain ⟨t, ts, body⟩ := decl
    rcases List.mem_append.1 h with h | h
    · have := params h; simp; omega
    · have := stmts h; simp; omega
  | expr e =>
    cases e with
    | literal | «variable» | this => cases h
    | grouping e | unary _ e | get e _ | assign _ _ e => cases List.mem_singleton.1 h; simp <;> omega
    | binary left _ right | logical left _ right | set left _ right =>
      simp only [children, List.mem_cons, List.not_mem_nil, or_false] at h
      rcases h with rfl | rfl <;> simp <;> omega
    | call callee t args =>
      rcases List.mem_cons.1 h with rfl | h
      · simp; omega
      · have := exprs h; simp; omega
  | param => cases h

/-- What holds of a node if it holds of the nodes directly in it holds of all nodes. -/
theorem of_children {P : Node → Prop} (h : ∀ n : Node, (∀ c ∈ n.children, P c) → P n) (n : Node) :
    P n := by
  induction hn : sizeOf n using Nat.strongRecOn generalizing n with
  | ind k ih =>
    subst hn
    exact h n fun c hc => ih (sizeOf c) (sizeOf_children hc) c rfl

/-! ## Declarations in front of a position -/

section

variable {scope : Position} {name : String}

/-- In front of the first branch of a node there is no more than in front of the node, but for the
node itself. -/
theorem declaredIn_first (h : root.node? p = some n) : root.DeclaredIn scope name (p ++ [0]) ↔
    root.DeclaredIn scope name p ∨ ∃ t, n.declared? = some t ∧ t.lexeme = name ∧
      (root.scopesAround p).head? = some scope := by
  constructor
  · rintro ⟨q, hq, m, hm, ht⟩
    rcases Position.lt_concat.1 hq with hq | rfl | ⟨j, hj, -⟩
    · exact .inl ⟨q, hq, m, hm, ht⟩
    · exact .inr (Option.some.inj (h.symm.trans hm) ▸ ht)
    · cases hj
  · rintro (⟨q, hq, hm⟩ | ht)
    · exact ⟨q, Position.lt_concat.2 (.inl hq), hm⟩
    · exact ⟨p, Position.lt_concat.2 (.inr (.inl rfl)), n, h, ht⟩

/-- In front of the next branch of a node there is what is behind all branches of this one. -/
theorem declaredIn_next (h : root.node? (p ++ [i]) = some n) :
    root.DeclaredIn scope name (p ++ [i + 1]) ↔
      root.DeclaredIn scope name (p ++ [i] ++ [n.children.length]) := by
  have hlt {q : Position} {m : Node} (hm : root.node? q = some m) :
      q < p ++ [i + 1] ↔ q < p ++ [i] ++ [n.children.length] := by
    simp only [Position.lt_concat]
    constructor
    · rintro (hq | rfl | ⟨j, hj, x, rfl⟩)
      · exact .inl (.inl hq)
      · exact .inl (.inr (.inl rfl))
      · rcases Nat.lt_succ_iff_lt_or_eq.1 hj with hj | rfl
        · exact .inl (.inr (.inr ⟨j, hj, x, rfl⟩))
        · cases x with
          | nil => exact .inr (.inl rfl)
          | cons k x =>
            -- A branch behind the last one does not exist.
            have hm : root.node? (p ++ [j] ++ k :: x) = some m := by simpa using hm
            rw [node?_append, h, Option.bind_some, node?] at hm
            refine .inr (.inr ⟨k, ?_, x, by simp⟩)
            by_contra hk
            rw [List.getElem?_eq_none (Nat.le_of_not_lt hk)] at hm
            cases hm
    · rintro ((hq | rfl | ⟨j, hj, x, rfl⟩) | rfl | ⟨k, -, x, rfl⟩)
      · exact .inl hq
      · exact .inr (.inl rfl)
      · exact .inr (.inr ⟨j, Nat.lt_succ_of_lt hj, x, rfl⟩)
      · exact .inr (.inr ⟨i, Nat.lt_succ_self i, [], rfl⟩)
      · exact .inr (.inr ⟨i, Nat.lt_succ_self i, k :: x, by simp⟩)
  constructor
  · rintro ⟨q, hq, m, hm, ht⟩
    exact ⟨q, (hlt hm).1 hq, m, hm, ht⟩
  · rintro ⟨q, hq, m, hm, ht⟩
    exact ⟨q, (hlt hm).2 hq, m, hm, ht⟩

/-- Nothing is declared in a scope before it is opened. -/
theorem not_declaredIn_self : ¬ root.DeclaredIn p name p := by
  rintro ⟨q, hq, m, hm, t, -, -, hs⟩
  exact Position.not_lt_of_prefix (head_scopesAround hs).1 hq

theorem pending_concat (h : root.node? p = some n) :
    root.Pending scope name (p ++ [i]) ↔ root.Pending scope name p ∨
      ∃ t init, n = .stmt (.var t init) ∧ t.lexeme = name ∧
        (root.scopesAround p).head? = some scope ∧ ¬ root.DeclaredIn scope name p := by
  simp only [Pending, Position.around_concat, List.mem_cons]
  constructor
  · rintro ⟨q, rfl | hq, t, init, hn, ht⟩
    · exact .inr ⟨t, init, Option.some.inj (h.symm.trans hn), ht⟩
    · exact .inl ⟨q, hq, t, init, hn, ht⟩
  · rintro (⟨q, hq, hn⟩ | ⟨t, init, rfl, ht⟩)
    · exact ⟨q, .inr hq, hn⟩
    · exact ⟨p, .inl rfl, t, init, h, ht⟩

/-- Nothing is pending in a scope before it is opened. -/
theorem not_pending_self : ¬ root.Pending p name p := by
  rintro ⟨q, hq, t, init, -, -, hs, -⟩
  have hqp := Position.mem_around.1 hq
  have hpq := head_scopesAround hs
  exact hqp.2 (hqp.1.eq_of_length_le hpq.1.length_le)

end

/-! ## What may stand where -/

def isExpr : Node → Bool
  | expr _ => true
  | _ => false

/-- In an expression, and in the declaration of a variable, there are only expressions. -/
theorem isExpr_of_mem_children {c : Node} (hc : c ∈ n.children)
    (hn : n.isExpr = true ∨ ∃ t init, n = .stmt (.var t init)) : c.isExpr = true := by
  rcases hn with hn | ⟨t, init, rfl⟩
  · cases n with
    | expr e =>
      cases e <;> simp only [children, List.mem_cons, List.mem_map, List.not_mem_nil, or_false] at hc
      case call => rcases hc with rfl | ⟨e, -, rfl⟩ <;> rfl
      case binary | logical | set => rcases hc with rfl | rfl <;> rfl
      all_goals first | exact hc.elim | (subst hc; rfl)
    | _ => cases hn
  · simp only [children, List.mem_map] at hc
    obtain ⟨e, -, rfl⟩ := hc
    rfl

/-- In the declaration of a variable there are only expressions, and no scope. -/
theorem below_var {q : Position} {t : Token} {init : Option Expr} {c : Node}
    (h : root.node? p = some (.stmt (.var t init))) (hc : root.node? q = some c) (hp : p <+: q) :
    (q = p ∨ c.isExpr = true) ∧ root.scopesAround q = root.scopesAround p := by
  obtain ⟨x, rfl⟩ := hp
  induction x using List.reverseRecOn generalizing c with
  | nil => simp
  | append_singleton x j ih =>
    rw [← List.append_assoc] at hc ⊢
    obtain ⟨m, hm, hj⟩ := parent_of_node? hc
    obtain ⟨hx, hs⟩ := ih hm
    have hvar : m.isExpr = true ∨ ∃ t init, m = .stmt (.var t init) := by
      refine hx.symm.imp_right fun hx => ⟨t, init, ?_⟩
      rw [hx, h] at hm
      exact (Option.some.inj hm).symm
    refine ⟨.inr (isExpr_of_mem_children (List.mem_of_getElem? hj) hvar), ?_⟩
    rw [scopesAround_concat hm, if_neg, hs]
    rcases hvar with hvar | ⟨t, init, rfl⟩
    · cases m <;> simp_all [isExpr, opensScope]
    · simp [opensScope]

/-- Only expressions are in an initializer. -/
theorem not_pending {scope : Position} {name : String} (h : root.node? p = some n)
    (hn : n.isExpr = false) : ¬ root.Pending scope name p := by
  rintro ⟨q, hq, t, init, hvar, -⟩
  obtain ⟨hqp, hne⟩ := Position.mem_around.1 hq
  rcases (below_var hvar h hqp).1 with rfl | he
  · exact hne rfl
  · rw [hn] at he
    cases he

/-- A class has methods in its scope, and nothing else. -/
theorem scope_not_class {scope : Position} (h : root.node? p = some n)
    (hn : ∀ decl, n ≠ .method decl) (hs : (root.scopesAround p).head? = some scope) :
    ¬ ∃ c, root.node? scope = some c ∧ c.isClass = true := by
  rintro ⟨c, hc, hclass⟩
  induction p using List.reverseRecOn generalizing n with
  | nil => simp [scopesAround] at hs
  | append_singleton p i ih =>
    obtain ⟨m, hm, hi⟩ := parent_of_node? h
    rw [scopesAround_concat hm] at hs
    split at hs
    next ho =>
      cases Option.some.inj hs
      cases Option.some.inj (hm.symm.trans hc)
      cases c with
      | stmt s =>
        cases s with
        | «class» name methods =>
          have := List.mem_of_getElem? hi
          simp only [children, List.mem_map] at this
          obtain ⟨decl, -, rfl⟩ := this
          exact hn decl rfl
        | _ => simp [isClass] at hclass
      | _ => simp [isClass] at hclass
    next ho =>
      refine ih hm (fun decl hd => ho ?_) hs
      rw [hd]
      rfl

end Node

end Lox
