/-
What the spelling of tokens means for the trees made of them. No name is spelled
like the receiver, and the receiver is spelled in one way, so nothing declares
the receiver and every node of it refers to one name.

A branch or the body of a loop is a statement, which declares nothing.
-/
import Lox.Proofs.Grammar.Ebnf
import Lox.Proofs.Scope.Shape
import Lox.Source.Items
import Lox.Tree.References

namespace Lox

/-- A name is not spelled like the receiver, and the receiver is. -/
structure WellSpelled (t : Token) : Prop where
  name : t.isIdentifier = true → t.lexeme ≠ receiverName
  receiver : t.is .kwThis = true → t.lexeme = receiverName

/-- The nodes of the receiver have its name, and no others have. -/
def Spelled (refs : List Reference) : Prop :=
  ∀ ref ∈ refs, ref.sort = .receiver ↔ ref.name.lexeme = receiverName

theorem spelled_nil : Spelled [] := fun _ h => nomatch h

theorem Spelled.append {refs refs' : List Reference} (h : Spelled refs) (h' : Spelled refs') :
    Spelled (refs ++ refs') := fun ref hr =>
  (List.mem_append.1 hr).elim (h ref) (h' ref)

namespace Ebnf

/-! ## Expressions -/

mutual

theorem spelled_assignment : ∀ {ts : List Token} {e : Expr}, Assignment ts e →
    (∀ t ∈ ts, WellSpelled t) → Spelled e.references
  | _, _, .variable hname _ he, h => by
    simp only [List.forall_mem_cons] at h
    intro ref hr
    rcases List.mem_cons.1 hr with rfl | hr
    · exact iff_of_false nofun (h.1.name hname)
    · exact spelled_assignment he h.2.2 ref hr
  | _, _, .property hobject _ _ _ he, h => by
    simp only [List.forall_mem_append, List.forall_mem_cons] at h
    exact (spelled_call hobject h.1).append (spelled_assignment he h.2.2.2.2)
  | _, _, .operation he, h => spelled_operation he h

theorem spelled_operation : ∀ {layer : Layer} {ts : List Token} {e : Expr}, Operation layer ts e →
    (∀ t ∈ ts, WellSpelled t) → Spelled e.references
  | _, _, _, .operand he, h => spelled_operand he h
  | layer, _, _, .operator hl _ hr, h => by
    simp only [List.forall_mem_append, List.forall_mem_cons] at h
    have := (spelled_operation hl h.1).append (spelled_operand hr h.2.2)
    cases layer <;> exact this

theorem spelled_operand : ∀ {layer : Layer} {ts : List Token} {e : Expr}, Operand layer ts e →
    (∀ t ∈ ts, WellSpelled t) → Spelled e.references
  | _, _, _, .layer _ he, h => spelled_operation he h
  | _, _, _, .unary _ he, h => spelled_unary he h

theorem spelled_unary : ∀ {ts : List Token} {e : Expr}, Unary ts e →
    (∀ t ∈ ts, WellSpelled t) → Spelled e.references
  | _, _, .operator _ he, h => by
    rw [Expr.references]
    exact spelled_unary he (List.forall_mem_cons.1 h).2
  | _, _, .call he, h => spelled_call he h

theorem spelled_call : ∀ {ts : List Token} {e : Expr}, Call ts e →
    (∀ t ∈ ts, WellSpelled t) → Spelled e.references
  | _, _, .primary he, h => spelled_primary he h
  | _, _, .call hcallee _ hargs _, h => by
    simp only [List.forall_mem_append, List.forall_mem_cons] at h
    exact (spelled_call hcallee h.1).append (spelled_arguments hargs h.2.2.1)
  | _, _, .property hobject _ _, h => by
    rw [List.forall_mem_append] at h
    rw [Expr.references]
    exact spelled_call hobject h.1

theorem spelled_arguments : ∀ {ts : List Token} {es : List Expr}, Arguments ts es →
    (∀ t ∈ ts, WellSpelled t) → Spelled (Expr.allReferences es)
  | _, _, .none, _ => spelled_nil
  | _, _, .some hes, h => spelled_argumentList hes h

theorem spelled_argumentList : ∀ {ts : List Token} {es : List Expr}, ArgumentList ts es →
    (∀ t ∈ ts, WellSpelled t) → Spelled (Expr.allReferences es)
  | _, _, .last he, h => (spelled_assignment he h).append spelled_nil
  | _, _, .more he _ hes, h => by
    simp only [List.forall_mem_append, List.forall_mem_cons] at h
    exact (spelled_assignment he h.1).append (spelled_argumentList hes h.2.2)

theorem spelled_primary : ∀ {ts : List Token} {e : Expr}, Primary ts e →
    (∀ t ∈ ts, WellSpelled t) → Spelled e.references
  | _, _, .literal _, _ => spelled_nil
  | _, _, .this ht, h => by
    intro ref hr
    cases List.mem_singleton.1 hr
    exact iff_of_true rfl ((h _ (List.mem_singleton.2 rfl)).receiver ht)
  | _, _, .variable hname, h => by
    intro ref hr
    cases List.mem_singleton.1 hr
    exact iff_of_false nofun ((h _ (List.mem_singleton.2 rfl)).name hname)
  | _, _, .grouping _ he _, h => by
    simp only [List.forall_mem_append, List.forall_mem_cons] at h
    rw [Expr.references]
    exact spelled_assignment he h.2.1

end

theorem spelled_optional {ts : List Token} {e? : Option Expr} (he : OptionalExpression ts e?)
    (h : ∀ t ∈ ts, WellSpelled t) (e : Expr) (hs : e? = some e) : Spelled e.references := by
  cases he with
  | none => cases hs
  | some he =>
    cases hs
    exact spelled_assignment he h

/-! ## Statements -/

/-- The statement declares as it may, and its receivers have their name. -/
structure WellFormed (s : Stmt) : Prop where
  proper : s.Proper
  spelled : Spelled s.references

theorem wellFormed_varDeclaration {ts : List Token} {s : Stmt} (hs : VarDeclaration ts s)
    (h : ∀ t ∈ ts, WellSpelled t) : WellFormed s := by
  cases hs with
  | plain _ hname _ =>
    simp only [List.forall_mem_cons] at h
    refine ⟨?_, spelled_nil⟩
    rw [Stmt.Proper]
    exact h.2.1.name hname
  | initialized _ hname _ he _ =>
    simp only [List.forall_mem_cons, List.forall_mem_append] at h
    refine ⟨?_, spelled_assignment he h.2.2.2.1⟩
    rw [Stmt.Proper]
    exact h.2.1.name hname

theorem wellFormed_expressionStatement {ts : List Token} {s : Stmt} (hs : ExpressionStatement ts s)
    (h : ∀ t ∈ ts, WellSpelled t) : WellFormed s ∧ s.declared? = none := by
  cases hs with
  | intro he _ =>
    rw [List.forall_mem_append] at h
    refine ⟨⟨?_, spelled_assignment he h.1⟩, rfl⟩
    rw [Stmt.Proper]
    trivial

theorem wellFormed_forInitializer {ts : List Token} {s? : Option Stmt} (hs : ForInitializer ts s?)
    (h : ∀ t ∈ ts, WellSpelled t) (s : Stmt) (he : s? = some s) : WellFormed s := by
  cases hs with
  | «variable» hs =>
    cases he
    exact wellFormed_varDeclaration hs h
  | expression hs =>
    cases he
    exact (wellFormed_expressionStatement hs h).1
  | none => cases he

/-- Two statements in a block. -/
theorem WellFormed.pair {s s' : Stmt} (h : WellFormed s) (h' : WellFormed s') :
    WellFormed (.block [s, s']) := by
  refine ⟨?_, ?_⟩
  · simp only [Stmt.Proper, Stmt.AllProper, and_true]
    exact ⟨h.proper, h'.proper⟩
  · simp only [Stmt.references, Stmt.allReferences, List.append_nil]
    exact h.spelled.append h'.spelled

theorem WellFormed.loop {test : Expr} {body : Stmt} (ht : Spelled test.references)
    (hb : WellFormed body ∧ body.declared? = none) : WellFormed (.while test body) := by
  refine ⟨?_, ht.append hb.1.spelled⟩
  rw [Stmt.Proper]
  exact ⟨hb.2, hb.1.proper⟩

theorem wellFormed_whileForm {init : Option Stmt} {test step : Option Expr} {body : Stmt}
    (hi : ∀ s, init = some s → WellFormed s) (ht : ∀ e, test = some e → Spelled e.references)
    (hs : ∀ e, step = some e → Spelled e.references)
    (hb : WellFormed body ∧ body.declared? = none) :
    WellFormed (whileForm init test step body) ∧ (whileForm init test step body).declared? = none := by
  have hbody : WellFormed (withIncrement body step) ∧ (withIncrement body step).declared? = none := by
    cases step with
    | none => exact hb
    | some e =>
      have he : WellFormed (.expression e) := ⟨by rw [Stmt.Proper]; trivial, hs e rfl⟩
      exact ⟨hb.1.pair he, rfl⟩
  have hloop : WellFormed (whileTrue (withIncrement body step) test) ∧
      (whileTrue (withIncrement body step) test).declared? = none := by
    cases test with
    | none => exact ⟨.loop spelled_nil hbody, rfl⟩
    | some e => exact ⟨.loop (ht e rfl) hbody, rfl⟩
  cases init with
  | none => exact hloop
  | some s => exact ⟨(hi s rfl).pair hloop.1, rfl⟩

theorem spelled_parameters {ts names : List Token} (hp : Parameters ts names)
    (h : ∀ t ∈ ts, WellSpelled t) : ∀ name ∈ names, name.lexeme ≠ receiverName := by
  cases hp with
  | none => exact fun _ hn => nomatch hn
  | some hp =>
    induction hp with
    | last hname =>
      rw [List.forall_mem_singleton] at h ⊢
      exact h.name hname
    | more hname _ _ ih =>
      simp only [List.forall_mem_cons] at h ⊢
      exact ⟨h.1.name hname, ih h.2.2⟩

mutual

theorem wellFormed_statement {nearest : Bool} : ∀ {ts : List Token} {s : Stmt} {opens : Bool},
    Statement nearest ts s opens → (∀ t ∈ ts, WellSpelled t) → WellFormed s ∧ s.declared? = none
  | _, _, _, .expression hs, h => wellFormed_expressionStatement hs h
  | _, _, _, .for _ _ hinit htest _ hstep _ hbody, h => by
    simp only [List.forall_mem_cons, List.forall_mem_append] at h
    exact wellFormed_whileForm (wellFormed_forInitializer hinit h.2.2.1)
      (spelled_optional htest h.2.2.2.1) (spelled_optional hstep h.2.2.2.2.2.1)
      (wellFormed_statement hbody h.2.2.2.2.2.2.2)
  | _, _, _, .if _ _ htest _ hthen, h => by
    simp only [List.forall_mem_cons, List.forall_mem_append] at h
    obtain ⟨hw, hd⟩ := wellFormed_statement hthen h.2.2.2.2
    refine ⟨⟨?_, (spelled_assignment htest h.2.2.1).append hw.spelled⟩, rfl⟩
    rw [Stmt.Proper]
    exact ⟨hd, hw.proper⟩
  | _, _, _, .ifElse _ _ htest _ hthen _ _ helse, h => by
    simp only [List.forall_mem_cons, List.forall_mem_append] at h
    obtain ⟨hw, hd⟩ := wellFormed_statement hthen h.2.2.2.2.1
    obtain ⟨hw', hd'⟩ := wellFormed_statement helse h.2.2.2.2.2.2
    refine ⟨⟨?_, ((spelled_assignment htest h.2.2.1).append hw.spelled).append hw'.spelled⟩, rfl⟩
    rw [Stmt.Proper]
    exact ⟨⟨hd, hw.proper⟩, hd', hw'.proper⟩
  | _, _, _, .print _ he _, h => by
    simp only [List.forall_mem_cons, List.forall_mem_append] at h
    refine ⟨⟨?_, spelled_assignment he h.2.1⟩, rfl⟩
    rw [Stmt.Proper]
    trivial
  | _, _, _, .return (e := e) _ he _, h => by
    simp only [List.forall_mem_cons, List.forall_mem_append] at h
    refine ⟨⟨?_, ?_⟩, rfl⟩
    · rw [Stmt.Proper]
      trivial
    · cases e with
      | none => exact spelled_nil
      | some e => exact spelled_optional he h.2.1 e rfl
  | _, _, _, .while _ _ htest _ hbody, h => by
    simp only [List.forall_mem_cons, List.forall_mem_append] at h
    obtain ⟨hw, hd⟩ := wellFormed_statement hbody h.2.2.2.2
    refine ⟨⟨?_, (spelled_assignment htest h.2.2.1).append hw.spelled⟩, rfl⟩
    rw [Stmt.Proper]
    exact ⟨hd, hw.proper⟩
  | _, _, _, .block hs, h => by
    obtain ⟨hp, hw⟩ := wellFormed_block hs h
    refine ⟨⟨?_, hw⟩, rfl⟩
    rw [Stmt.Proper]
    exact hp

theorem wellFormed_declaration {nearest : Bool} : ∀ {ts : List Token} {s : Stmt},
    Declaration nearest ts s → (∀ t ∈ ts, WellSpelled t) → WellFormed s
  | _, _, .class _ hname _ hmethods _, h => by
    simp only [List.forall_mem_cons, List.forall_mem_append] at h
    obtain ⟨hp, hw⟩ := wellFormed_methods hmethods h.2.2.2.1
    refine ⟨?_, hw⟩
    rw [Stmt.Proper]
    exact ⟨h.2.1.name hname, hp⟩
  | _, _, .function _ hf, h => by
    rw [List.forall_mem_cons] at h
    obtain ⟨hname, hp, hw⟩ := wellFormed_function hf h.2
    refine ⟨?_, hw⟩
    rw [Stmt.Proper]
    exact ⟨hname, hp⟩
  | _, _, .variable hs, h => wellFormed_varDeclaration hs h
  | _, _, .statement hs, h => (wellFormed_statement hs h).1

theorem wellFormed_declarations {nearest : Bool} : ∀ {ts : List Token} {ss : List Stmt},
    Declarations nearest ts ss → (∀ t ∈ ts, WellSpelled t) →
    Stmt.AllProper ss ∧ Spelled (Stmt.allReferences ss)
  | _, _, .nil, _ => ⟨trivial, spelled_nil⟩
  | _, _, .cons hs hmore, h => by
    rw [List.forall_mem_append] at h
    have hw := wellFormed_declaration hs h.1
    obtain ⟨hp', hw'⟩ := wellFormed_declarations hmore h.2
    exact ⟨⟨hw.proper, hp'⟩, hw.spelled.append hw'⟩

theorem wellFormed_block {nearest : Bool} : ∀ {ts : List Token} {ss : List Stmt},
    Block nearest ts ss → (∀ t ∈ ts, WellSpelled t) →
    Stmt.AllProper ss ∧ Spelled (Stmt.allReferences ss)
  | _, _, .intro _ hs _, h => by
    simp only [List.forall_mem_cons, List.forall_mem_append] at h
    exact wellFormed_declarations hs h.2.1

theorem wellFormed_function {nearest : Bool} : ∀ {ts : List Token} {d : FunctionDecl},
    Function nearest ts d → (∀ t ∈ ts, WellSpelled t) →
    d.name.lexeme ≠ receiverName ∧ d.Proper ∧ Spelled d.references
  | _, _, .intro hname _ hparams _ hbody, h => by
    simp only [List.forall_mem_cons, List.forall_mem_append] at h
    obtain ⟨hp, hw⟩ := wellFormed_block hbody h.2.2.2.2
    refine ⟨h.1.name hname, ?_, hw⟩
    rw [FunctionDecl.Proper]
    exact ⟨spelled_parameters hparams h.2.2.1, hp⟩

theorem wellFormed_methods {nearest : Bool} : ∀ {ts : List Token} {ds : List FunctionDecl},
    Methods nearest ts ds → (∀ t ∈ ts, WellSpelled t) →
    FunctionDecl.AllProper ds ∧ Spelled (FunctionDecl.allReferences ds)
  | _, _, .nil, _ => ⟨trivial, spelled_nil⟩
  | _, _, .cons hd hmore, h => by
    rw [List.forall_mem_append] at h
    obtain ⟨-, hp, hw⟩ := wellFormed_function hd h.1
    obtain ⟨hp', hw'⟩ := wellFormed_methods hmore h.2
    exact ⟨⟨hp, hp'⟩, hw.append hw'⟩

end

end Ebnf

/-! ## Tokens of a source -/

namespace Source

/-- A token that a piece is made into, on whatever line, is well spelled. -/
def Cut.Spelled (p : Cut) : Prop :=
  ∀ kind, p.piece = .token kind → ∀ line, WellSpelled ⟨kind, Utf8.lenient p.taken, line⟩

theorem spelled_of_symbol {s : Symbol} {taken rest : List UInt8} (hs : s ≠ .kwThis) :
    (⟨.token (.symbol s), taken, rest⟩ : Cut).Spelled := by
  intro kind hk line
  cases hk
  exact ⟨(fun h => by cases h), fun h => absurd (TokenKind.symbol.inj (Token.is_iff.1 h)) hs⟩

theorem spelled_cutString (rest : List UInt8) : (cutString rest).Spelled := by
  intro kind hk line
  unfold cutString at hk
  split at hk
  · cases hk
  · cases hk
    exact ⟨(fun h => by cases h), fun h => by cases h⟩

theorem spelled_cutNumber (b : UInt8) (rest : List UInt8) : (cutNumber b rest).Spelled := by
  intro kind hk line
  have : ∃ x, kind = .number x := by
    unfold cutNumber at hk
    split at hk
    · split at hk
      · exact ⟨_, (Piece.token.inj hk).symm⟩
      · exact ⟨_, (Piece.token.inj hk).symm⟩
    · exact ⟨_, (Piece.token.inj hk).symm⟩
  obtain ⟨x, rfl⟩ := this
  exact ⟨(fun h => by cases h), fun h => by cases h⟩

/-- A word is a name only if no keyword is spelled like it. -/
theorem spelled_cutWord (b : UInt8) (rest : List UInt8) : (cutWord b rest).Spelled := by
  intro kind hk line
  simp only [cutWord, Piece.token.injEq] at hk ⊢
  subst hk
  split
  next k hk =>
    refine ⟨(fun h => by cases h), fun h => ?_⟩
    have hthis : k = .kwThis := TokenKind.symbol.inj (Token.is_iff.1 h)
    exact (Symbol.keyword?_text hk).symm.trans (hthis ▸ rfl)
  next hk =>
    refine ⟨fun _ he => ?_, fun h => by cases h⟩
    have he : Utf8.lenient (b :: rest.takeWhile isWord) = receiverName := he
    rw [he] at hk
    revert hk
    decide

theorem equalMarks?_ne {b : UInt8} {short long : Symbol} (h : equalMarks? b = some (short, long)) :
    short ≠ .kwThis ∧ long ≠ .kwThis := by
  unfold equalMarks? at h
  split at h <;> cases h <;> decide

theorem mark?_ne {b : UInt8} {s : Symbol} (h : mark? b = some s) : s ≠ .kwThis := by
  unfold mark? at h
  split at h <;> cases h <;> decide

theorem spelled_cut (b : UInt8) (rest : List UInt8) : (cut b rest).Spelled := by
  unfold cut
  split
  · exact fun _ hk => by cases hk
  split
  · exact fun _ hk => by cases hk
  split
  · exact spelled_cutString rest
  split
  · exact spelled_cutNumber b rest
  split
  · exact spelled_cutWord b rest
  split
  next hm _ => exact spelled_of_symbol (equalMarks?_ne hm).2
  next hm _ _ => exact spelled_of_symbol (equalMarks?_ne hm).1
  split
  next hm => exact spelled_of_symbol (mark?_ne hm)
  next => exact fun _ hk => by cases hk

theorem wellSpelled_next? {c c' : Cursor} {i : Item} {t : Token} (h : c.next? = some (i, c'))
    (ht : i.found = .token t) : WellSpelled t := by
  fun_induction Cursor.next? c with
  | case1 => cases h
  | case2 =>
    cases h
    cases ht
    exact ⟨(fun h => by cases h), fun h => by cases h⟩
  | case3 _ _ _ _ _ _ _ _ ih => exact ih h
  | case4 c _ b bytes _ p past kind hp =>
    simp only [Option.some.injEq, Prod.mk.injEq] at h
    obtain ⟨rfl, -⟩ := h
    cases ht
    exact spelled_cut b bytes kind hp _
  | case5 =>
    simp only [Option.some.injEq, Prod.mk.injEq] at h
    obtain ⟨rfl, -⟩ := h
    cases ht

theorem wellSpelled_itemsAfter {found : List Item} {c : Cursor}
    (h : ∀ i ∈ found, ∀ t, i.found = .token t → WellSpelled t) :
    ∀ i ∈ c.itemsAfter found, ∀ t, i.found = .token t → WellSpelled t := by
  fun_induction Cursor.itemsAfter found c with
  | case1 found c => exact fun i hi => h i (List.mem_reverse.1 hi)
  | case2 found c i past hn ih =>
    refine ih fun j hj t ht => ?_
    rcases List.mem_cons.1 hj with rfl | hj
    · exact wellSpelled_next? hn ht
    · exact h j hj t ht

/-- Every token of a source is well spelled. -/
theorem wellSpelled_scan {bytes : List UInt8} : ∀ t ∈ (scan bytes).1, WellSpelled t := by
  intro t ht
  obtain ⟨i, hi, hit⟩ := List.mem_filterMap.1 ht
  split at hit
  next t' hfound =>
    cases hit
    exact wellSpelled_itemsAfter (fun _ h => by cases h) i hi t hfound
  next => cases hit

end Source

end Lox
