/-
What the rules find without a report is in the grammar: the tokens that a rule
takes derive the tree that it returns, with no more arguments or parameters than
are allowed, and an `else` goes to the nearest open `if`. On the way every node
that refers to a binding gets a number of its own.
-/
import Lox.Proofs.Grammar.Ebnf
import Lox.Proofs.Grammar.Quiet
import Lox.Tree.References
import Mathlib.Data.List.Nodup

namespace Lox.Grammar

open Rule

/-! ## Numbers -/

/-- Each number is used once, and none that is below the first one or not below the last one. -/
structure Span (first last : NodeId) (refs : List Reference) : Prop where
  le : first ≤ last
  nodup : (refs.map Reference.id).Nodup
  bounds : ∀ ref ∈ refs, first ≤ ref.id ∧ ref.id < last

namespace Span

variable {a b c : NodeId} {xs ys : List Reference}

theorem nil (h : a ≤ b) : Span a b [] := ⟨h, .nil, fun _ h => by cases h⟩

theorem single (sort : ReferenceSort) (name : Token) : Span a (a + 1) [⟨sort, a, name⟩] :=
  ⟨Nat.le_succ a, List.nodup_singleton _, fun ref h => by
    cases List.mem_singleton.1 h
    exact ⟨Nat.le_refl a, Nat.lt_succ_self a⟩⟩

theorem append_comm (h : Span a b xs) (h' : Span b c ys) : Span a c (ys ++ xs) := by
  refine ⟨Nat.le_trans h.le h'.le, ?_, fun ref hr => ?_⟩
  · rw [List.map_append, List.nodup_append]
    refine ⟨h'.nodup, h.nodup, fun i hi j hj hij => ?_⟩
    obtain ⟨x, hx, rfl⟩ := List.mem_map.1 hi
    obtain ⟨y, hy, rfl⟩ := List.mem_map.1 hj
    have hlt : y.id < x.id := Nat.lt_of_lt_of_le (h.bounds y hy).2 (h'.bounds x hx).1
    rw [hij] at hlt
    exact Nat.lt_irrefl _ hlt
  · rcases List.mem_append.1 hr with hr | hr
    · exact ⟨Nat.le_trans h.le (h'.bounds ref hr).1, (h'.bounds ref hr).2⟩
    · exact ⟨(h.bounds ref hr).1, Nat.lt_of_lt_of_le (h.bounds ref hr).2 h'.le⟩

theorem append (h : Span a b xs) (h' : Span b c ys) : Span a c (xs ++ ys) := by
  have hc := h.append_comm h'
  refine ⟨hc.le, ?_, fun ref hr => hc.bounds ref ?_⟩
  · rw [List.map_append]
    have := hc.nodup
    rw [List.map_append] at this
    exact List.nodup_append_comm.1 this
  · rw [List.mem_append] at hr ⊢
    exact hr.symm

end Span

/-- A rule took tokens that stand for what it found, and numbered the references in that. -/
structure Reads {α : Type} (P : List Token → α → Prop) (refs : α → List Reference) (c : Cursor)
    (a : α) (c' : Cursor) : Prop where
  derives : ∃ ts, c.rest = ts ++ c'.rest ∧ P ts a
  span : Span c.nextId c'.nextId (refs a)

/-- An expression of this production. -/
def ReadsExpr (P : List Token → Expr → Prop) : Cursor → Expr → Cursor → Prop :=
  Reads (fun ts e => P ts e ∧ e.WithinArity) Expr.references

/-! ## Expressions -/

/-- A token that was looked at and is not the end is taken. -/
theorem took_of_peek {c c' : Cursor} {t : Token} (ht : t.isEof = false)
    (hp : t.isEof = true ∨ ∃ rest, c.rest = t :: rest)
    (h : ∀ t rest, c.rest = t :: rest → Took c t c') : Took c t c' := by
  rcases hp with hp | ⟨rest, hrest⟩
  · rw [hp] at ht
    cases ht
  · exact h t rest hrest

theorem ReadsExpr.single {P : List Token → Expr → Prop} {c c' : Cursor} {t : Token} {e : Expr}
    (ht : c.rest = t :: c'.rest) (hp : P [t] e) (hw : e.WithinArity)
    (hs : Span c.nextId c'.nextId e.references) : ReadsExpr P c e c' :=
  ⟨⟨[t], ht, hp, hw⟩, hs⟩

section

variable {E : Rule Expr} (hE : Sound E (ReadsExpr Ebnf.Assignment))

theorem sound_constant {t : Token} {l : Literal} (ht : t.isEof = false) (hl : Ebnf.Constant t l) :
    Sound (do modify Cursor.advance; return .literal l) fun c' e c'' => ∀ c : Cursor,
      (c' = c ∧ (t.isEof = true ∨ ∃ rest, c.rest = t :: rest)) → ReadsExpr Ebnf.Primary c e c'' := by
  refine .bind .advance fun _ => .pure fun c' c h c₀ h₀ => ?_
  obtain ⟨rfl, hp⟩ := h₀
  have htook := took_of_peek ht hp h
  exact .single htook.1 (.literal hl) trivial (.nil (Nat.le_of_eq htook.2.symm))

include hE in
theorem sound_primary : Sound (primary E) (ReadsExpr Ebnf.Primary) := by
  unfold primary
  refine .bind .peek fun t => ?_
  split
  next hk => exact sound_constant (by simp [Token.isEof, hk]) (.false (Token.is_iff.2 hk))
  next hk => exact sound_constant (by simp [Token.isEof, hk]) (.true (Token.is_iff.2 hk))
  next hk => exact sound_constant (by simp [Token.isEof, hk]) (.nil (Token.is_iff.2 hk))
  next hk => exact sound_constant (by simp [Token.isEof, hk]) (.number hk)
  next hk => exact sound_constant (by simp [Token.isEof, hk]) (.string hk)
  next hk =>
    refine .bind .advance fun _ => .bind .freshId fun id => .pure fun c₂ c₁ h₁ c h c₀ h₀ => ?_
    obtain ⟨rfl, hp⟩ := h₀
    obtain ⟨rfl, hid, hrest⟩ := h₁
    have htook := took_of_peek (by simp [Token.isEof, hk]) hp h
    refine .single (hrest ▸ htook.1) (.this (Token.is_iff.2 hk)) trivial ?_
    rw [hid, ← htook.2]
    exact .single .receiver t
  next hk =>
    refine .bind .advance fun _ => .bind .freshId fun id => .pure fun c₂ c₁ h₁ c h c₀ h₀ => ?_
    obtain ⟨rfl, hp⟩ := h₀
    obtain ⟨rfl, hid, hrest⟩ := h₁
    have htook := took_of_peek (by simp [Token.isEof, hk]) hp h
    refine .single (hrest ▸ htook.1) (.variable (by simp [Token.isIdentifier, hk])) trivial ?_
    rw [hid, ← htook.2]
    exact .single .read t
  next hk =>
    refine .bind .advance fun _ => .bind hE fun e => .bind (.require _ _) fun close =>
      .pure fun c₃ c₂ h₂ c₁ h₁ c h c₀ h₀ => ?_
    obtain ⟨rfl, hp⟩ := h₀
    have htook := took_of_peek (by simp [Token.isEof, hk]) hp h
    obtain ⟨⟨ts, hts, he, hw⟩, hspan⟩ := h₁
    obtain ⟨hclose, his⟩ := h₂
    refine ⟨⟨t :: (ts ++ [close]), ?_, .grouping (Token.is_iff.2 hk) he his, hw⟩, ?_⟩
    · rw [htook.1, hts, hclose.1]
      simp
    · rw [htook.2] at hspan
      rw [hclose.2]
      exact hspan
  next => exact .fail _

include hE in
theorem sound_arguments : Sound (arguments E)
    (Reads (fun ts es => Ebnf.Arguments ts es ∧ es.length ≤ 255 ∧ Expr.AllWithinArity es)
      Expr.allReferences) := by
  unfold arguments
  refine .bind (.sees _) fun b => .ite (fun hb => .pure fun c c₀ h₀ => ?_) fun hb => ?_
  · obtain ⟨rfl, rfl⟩ := h₀
    exact ⟨⟨[], rfl, .none, Nat.zero_le _, trivial⟩, .nil (Nat.le_refl _)⟩
  · refine Sound.weaken (.fix (Q := fun found c es c' => ∃ new, es = found.reverse ++ new ∧
      found.length + new.length ≤ 255 ∧ Reads (fun ts es => Ebnf.ArgumentList ts es ∧
        Expr.AllWithinArity es) Expr.allReferences c new c') (fun again hagain found => ?_) []) ?_
    · unfold argumentsStep
      refine .limit fun _ => .bind hE fun e => .bind (.accept? _) fun comma? => ?_
      cases comma? with
      | some comma =>
        refine (hagain (e :: found)).weaken fun c₂ es c₃ h₂ c₁ h₁ c h hlt => ?_
        obtain ⟨⟨ts, hts, he, hw⟩, hspan⟩ := h
        obtain ⟨hcomma, his⟩ := h₁
        obtain ⟨new, rfl, hlength, ⟨us, hus, hes, hws⟩, hspans⟩ := h₂
        refine ⟨e :: new, by simp, ?_, ⟨ts ++ comma :: us, ?_, ?_, hw, hws⟩, ?_⟩
        · rw [List.length_cons] at hlength ⊢
          omega
        · rw [hts, hcomma.1, hus]
          simp
        · exact .more he (by simpa using his) hes
        · rw [hcomma.2] at hspans
          exact hspan.append hspans
      | none =>
        refine .pure fun c₁ c h₁ c₀ h₀ hlt => ?_
        obtain ⟨⟨ts, hts, he, hw⟩, hspan⟩ := h₀
        obtain ⟨rfl, -⟩ := h₁
        refine ⟨[e], by simp, hlt, ⟨ts, hts, .last he, hw, trivial⟩, ?_⟩
        rw [Expr.allReferences, Expr.allReferences, List.append_nil]
        exact hspan
    · rintro c es c' ⟨new, rfl, hlength, ⟨ts, hts, hes, hws⟩, hspans⟩ c₀ ⟨-, rfl⟩
      exact ⟨⟨ts, hts, .some hes, by simpa using hlength, hws⟩, hspans⟩

/-- An expression of this production with this beginning, which was read before. -/
def Continues (P : List Token → Expr → Prop) (first : Expr) (c : Cursor) (e : Expr) (c' : Cursor) :
    Prop :=
  ∀ us, P us first → first.WithinArity → ∃ ts refs, c.rest = ts ++ c'.rest ∧ P (us ++ ts) e ∧
    e.WithinArity ∧ e.references = first.references ++ refs ∧ Span c.nextId c'.nextId refs

theorem Continues.refl {P : List Token → Expr → Prop} (e : Expr) (c : Cursor) :
    Continues P e c e c := fun us hp hw =>
  ⟨[], [], rfl, by rwa [List.append_nil], hw, (List.append_nil _).symm, .nil (Nat.le_refl _)⟩

theorem ReadsExpr.continues {P : List Token → Expr → Prop} {c c' c'' : Cursor} {first e : Expr}
    (h : ReadsExpr P c first c') (h' : Continues P first c' e c'') : ReadsExpr P c e c'' := by
  obtain ⟨⟨us, hus, hp, hw⟩, hspan⟩ := h
  obtain ⟨ts, refs, hts, he, hwe, hrefs, hspan'⟩ := h' us hp hw
  refine ⟨⟨us ++ ts, ?_, he, hwe⟩, ?_⟩
  · rw [hus, hts, List.append_assoc]
  · rw [hrefs]
    exact hspan.append hspan'

include hE in
theorem sound_call : Sound (call E) (ReadsExpr Ebnf.Call) := by
  unfold call
  refine .bind (sound_primary hE) fun e => Sound.weaken (.fix (Q := Continues Ebnf.Call)
    (fun again hagain callee => ?_) e) ?_
  · refine .bind (.accept? _) fun t? => ?_
    cases t? with
    | none => exact .pure fun c c₀ h₀ => h₀.1 ▸ .refl callee c
    | some t =>
      refine .ite (fun ht => ?_) fun ht => ?_
      · refine .bind (sound_arguments hE) fun args => .bind (.require _ _) fun close =>
          (hagain _).weaken fun c₃ e c₄ h₄ c₂ h₂ c₁ h₁ c h us hus hw => ?_
        obtain ⟨hopen, -⟩ := h
        obtain ⟨⟨ts, hts, hargs, hlength, hwargs⟩, hspan⟩ := h₁
        obtain ⟨hclose, his⟩ := h₂
        obtain ⟨vs, refs, hvs, he, hwe, hrefs, hspan'⟩ := h₄ _ (.call hus ht hargs his)
          ⟨hw, hlength, hwargs⟩
        refine ⟨t :: (ts ++ close :: vs), Expr.allReferences args ++ refs, ?_, ?_, hwe, ?_, ?_⟩
        · rw [hopen.1, hts, hclose.1, hvs]
          simp
        · rw [show us ++ t :: (ts ++ close :: vs) = us ++ t :: (ts ++ [close]) ++ vs by simp]
          exact he
        · rw [hrefs, Expr.references, List.append_assoc]
        · rw [hopen.2] at hspan
          rw [hclose.2] at hspan'
          exact hspan.append hspan'
      · refine .bind (.requireName _) fun name => ?_
        refine (hagain _).weaken fun c₂ e c₃ h₃ c₁ h₁ c h us hus hw => ?_
        obtain ⟨hdot, hany⟩ := h
        obtain ⟨hname, his⟩ := h₁
        have hdot' : t.is .dot = true := by simpa [ht] using hany
        obtain ⟨vs, refs, hvs, he, hwe, hrefs, hspan'⟩ := h₃ _ (.property hus hdot' his) hw
        refine ⟨t :: name :: vs, refs, ?_, ?_, hwe, hrefs, ?_⟩
        · rw [hdot.1, hname.1, hvs]
          simp
        · rw [show us ++ t :: name :: vs = us ++ [t, name] ++ vs by simp]
          exact he
        · rw [← hdot.2, ← hname.2]
          exact hspan'
  · intro c e' c' h c₀ h₀
    obtain ⟨⟨ts, hts, hp, hw⟩, hspan⟩ := h₀
    exact ReadsExpr.continues (P := Ebnf.Call) ⟨⟨ts, hts, .primary hp, hw⟩, hspan⟩ h

include hE in
theorem sound_unary : Sound (unary E) (ReadsExpr Ebnf.Unary) := by
  refine .fix (Q := fun _ => ReadsExpr Ebnf.Unary) (fun again hagain _ => ?_) ()
  refine .bind (.accept? _) fun op? => ?_
  cases op? with
  | none =>
    refine (sound_call hE).weaken fun c e c' h c₀ h₀ => ?_
    obtain ⟨rfl, -⟩ := h₀
    obtain ⟨⟨ts, hts, hp, hw⟩, hspan⟩ := h
    exact ⟨⟨ts, hts, .call hp, hw⟩, hspan⟩
  | some op =>
    refine .bind (hagain ()) fun e => .pure fun c' c h c₀ h₀ => ?_
    obtain ⟨⟨ts, hts, hp, hw⟩, hspan⟩ := h
    refine ⟨⟨op :: ts, ?_, .operator h₀.2 hp, hw⟩, ?_⟩
    · rw [h₀.1.1, hts]
      rfl
    · rw [h₀.1.2] at hspan
      exact hspan

/-! ## Operators -/

theorem withinArity_node (layer : Ebnf.Layer) {left right : Expr} {op : Token}
    (hl : left.WithinArity) (hr : right.WithinArity) : (layer.node left op right).WithinArity := by
  cases layer <;> exact ⟨hl, hr⟩

theorem references_node (layer : Ebnf.Layer) (left right : Expr) (op : Token) :
    (layer.node left op right).references = left.references ++ right.references := by
  cases layer <;> rfl

theorem sound_chain (layer : Ebnf.Layer) {operand : Rule Expr}
    (h : Sound operand (ReadsExpr (Ebnf.Operand layer))) :
    Sound (chain ⟨layer.operators, layer.node⟩ operand) (ReadsExpr (Ebnf.Operation layer)) := by
  refine .bind h fun e => Sound.weaken (.fix (Q := Continues (Ebnf.Operation layer))
    (fun again hagain left => ?_) e) ?_
  · refine .bind (.accept? _) fun op? => ?_
    cases op? with
    | none => exact .pure fun c c₀ h₀ => h₀.1 ▸ .refl left c
    | some op =>
      refine .bind h fun right => (hagain _).weaken fun c₂ e c₃ h₃ c₁ h₁ c h₀ us hus hw => ?_
      obtain ⟨⟨ts, hts, hp, hwr⟩, hspan⟩ := h₁
      obtain ⟨hop, his⟩ := h₀
      obtain ⟨vs, refs, hvs, he, hwe, hrefs, hspan'⟩ := h₃ _ (.operator hus his hp)
        (withinArity_node layer hw hwr)
      refine ⟨op :: (ts ++ vs), right.references ++ refs, ?_, ?_, hwe, ?_, ?_⟩
      · rw [hop.1, hts, hvs]
        simp
      · rw [show us ++ op :: (ts ++ vs) = us ++ op :: ts ++ vs by simp]
        exact he
      · rw [hrefs, references_node, List.append_assoc]
      · rw [hop.2] at hspan
        exact hspan.append hspan'
  · intro c e' c' h c₀ h₀
    obtain ⟨⟨ts, hts, hp, hw⟩, hspan⟩ := h₀
    exact ReadsExpr.continues (P := Ebnf.Operation layer) ⟨⟨ts, hts, .operand hp, hw⟩, hspan⟩ h

/-- The operands of a layer are of the next one. -/
theorem ReadsExpr.operand {layer next : Ebnf.Layer} (h : layer.tighter? = some next) (c : Cursor)
    (e : Expr) (c' : Cursor) (he : ReadsExpr (Ebnf.Operation next) c e c') :
    ReadsExpr (Ebnf.Operand layer) c e c' := by
  obtain ⟨⟨ts, hts, hp, hw⟩, hspan⟩ := he
  exact ⟨⟨ts, hts, .layer h hp, hw⟩, hspan⟩

include hE in
theorem sound_operation : Sound (operation E) (ReadsExpr (Ebnf.Operation .logicOr)) := by
  have factor := sound_chain .factor ((sound_unary hE).weaken fun c e c' he => by
    obtain ⟨⟨ts, hts, hp, hw⟩, hspan⟩ := he
    exact ⟨⟨ts, hts, .unary rfl hp, hw⟩, hspan⟩)
  have term := sound_chain .term (factor.weaken (ReadsExpr.operand rfl))
  have comparison := sound_chain .comparison (term.weaken (ReadsExpr.operand rfl))
  have equality := sound_chain .equality (comparison.weaken (ReadsExpr.operand rfl))
  have logicAnd := sound_chain .logicAnd (equality.weaken (ReadsExpr.operand rfl))
  exact sound_chain .logicOr (logicAnd.weaken (ReadsExpr.operand rfl))

end

/-! ## Assignments -/

mutual

/-- An expression that is not made by a binary operator is a unary one. -/
theorem unary_of_operation {layer : Ebnf.Layer} {ts : List Token} {e : Expr}
    (hn : ∀ (layer : Ebnf.Layer) left op right, e ≠ layer.node left op right) :
    Ebnf.Operation layer ts e → Ebnf.Unary ts e
  | .operand h => unary_of_operand hn h
  | .operator .. => absurd rfl (hn _ _ _ _)

theorem unary_of_operand {layer : Ebnf.Layer} {ts : List Token} {e : Expr}
    (hn : ∀ (layer : Ebnf.Layer) left op right, e ≠ layer.node left op right) :
    Ebnf.Operand layer ts e → Ebnf.Unary ts e
  | .layer _ h => unary_of_operation hn h
  | .unary _ h => h

end

/-- Only a name by itself is read as a variable. -/
theorem variable_of_operation {layer : Ebnf.Layer} {ts : List Token} {id : NodeId} {name : Token}
    (h : Ebnf.Operation layer ts (.variable id name)) :
    ts = [name] ∧ name.isIdentifier = true := by
  cases unary_of_operation (fun layer _ _ _ => by cases layer <;> exact Expr.noConfusion) h with
  | call h =>
    cases h with
    | primary h =>
      cases h with
      | «variable» hn => exact ⟨rfl, hn⟩

/-- Only a property behind a call is read as a property. -/
theorem property_of_operation {layer : Ebnf.Layer} {ts : List Token} {object : Expr} {name : Token}
    (h : Ebnf.Operation layer ts (.get object name)) :
    ∃ us dot, ts = us ++ [dot, name] ∧ Ebnf.Call us object ∧ dot.is .dot = true ∧
      name.isIdentifier = true := by
  cases unary_of_operation (fun layer _ _ _ => by cases layer <;> exact Expr.noConfusion) h with
  | call h =>
    cases h with
    | primary h => cases h
    | property hus hdot hname => exact ⟨_, _, rfl, hus, hdot, hname⟩

theorem sound_assignment {E : Rule Expr} (hE : Sound E (ReadsExpr Ebnf.Assignment)) :
    Sound (assignment E) (ReadsExpr Ebnf.Assignment) := by
  refine .bind (sound_operation hE) fun target => .bind (.accept? _) fun equals? => ?_
  cases equals? with
  | none =>
    refine .pure fun c₁ c h₁ c₀ h₀ => ?_
    obtain ⟨⟨ts, hts, hp, hw⟩, hspan⟩ := h₀
    rw [h₁.1]
    exact ⟨⟨ts, hts, .operation hp, hw⟩, hspan⟩
  | some equals =>
    refine .bind hE fun value => ?_
    split
    next name =>
      refine .bind .freshId fun id => .pure fun c₃ c₂ h₂ c₁ h₁ c h c₀ h₀ => ?_
      obtain ⟨⟨us, hus, hp, -⟩, hspan⟩ := h₀
      obtain ⟨⟨ts, hts, he, hw⟩, hspan'⟩ := h₁
      obtain ⟨rfl, hname⟩ := variable_of_operation hp
      obtain ⟨rfl, hid, hrest⟩ := h₂
      refine ⟨⟨name :: equals :: ts, ?_, .variable hname (by simpa using h.2) he, hw⟩, ?_⟩
      · rw [hus, h.1.1, hts, hrest]
        rfl
      · rw [hid]
        rw [h.1.2] at hspan'
        have hle : c₀.nextId ≤ c.nextId := hspan.le
        have hmore := hspan'.append_comm (Span.single (a := c₂.nextId) .write name)
        exact ⟨Nat.le_trans hle hmore.le, hmore.nodup, fun ref hr =>
          ⟨Nat.le_trans hle (hmore.bounds ref hr).1, (hmore.bounds ref hr).2⟩⟩
    next object name =>
      refine .pure fun c₂ c₁ h₁ c h c₀ h₀ => ?_
      obtain ⟨⟨us, hus, hp, hw⟩, hspan⟩ := h₀
      obtain ⟨⟨ts, hts, he, hwe⟩, hspan'⟩ := h₁
      obtain ⟨vs, dot, rfl, hobject, hdot, hname⟩ := property_of_operation hp
      refine ⟨⟨vs ++ dot :: name :: equals :: ts, ?_,
        .property hobject hdot hname (by simpa using h.2) he, hw, hwe⟩, ?_⟩
      · rw [hus, h.1.1, hts]
        simp
      · rw [h.1.2] at hspan'
        exact hspan.append hspan'
    next => exact .bind (.report _) fun _ => .pure fun _ _ h => h.elim

/-- An expression that is read without a report is one of the grammar. -/
theorem sound_expression : Sound expression (ReadsExpr Ebnf.Assignment) :=
  .fix (Q := fun _ => ReadsExpr Ebnf.Assignment) (fun _ hagain _ => sound_assignment (hagain ())) ()

end Lox.Grammar
