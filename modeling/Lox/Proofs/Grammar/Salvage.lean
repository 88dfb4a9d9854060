/-
What is left of tokens with syntax errors. Whatever was reported on the way, the
tree that a rule returns is one that the grammar gives for some of the tokens
that the rule took, in their order, and the nodes in it that refer to a binding
have numbers of their own (`Salvages`). Tokens are dropped in two places: where a
declaration fails, and behind an expression that cannot be assigned to.
-/
import Lox.Proofs.Grammar.Carry
import Lox.Proofs.Grammar.Soundness

namespace Lox.Grammar

namespace Rule

variable {α β : Type}

/-- What a rule finds is as stated of some of the tokens that it took, and of the numbers before and
behind them. -/
structure Salvages (rule : Rule α) (Q : NodeId → List Token → α → NodeId → Prop) : Prop where
  onward : ∀ c : Cursor, c.Onward (cursorOf (rule c))
  keeps : ∀ {c a c'}, c.eof.isEof = true → rule c = .ok a c' →
    ∃ ts us, c.rest = ts ++ c'.rest ∧ us.Sublist ts ∧ Q c.nextId us a c'.nextId

namespace Salvages

variable {P : NodeId → List Token → β → NodeId → Prop} {Q : NodeId → List Token → α → NodeId → Prop}
  {rule : Rule α}

theorem onward_ok (h : Salvages rule Q) {c c' : Cursor} {a : α} (hr : rule c = .ok a c') :
    c.Onward c' := by
  have := h.onward c
  rwa [hr] at this

theorem imp {Q' : NodeId → List Token → α → NodeId → Prop} (h : Salvages rule Q')
    (hQ : ∀ i us a j, Q' i us a j → Q i us a j) : Salvages rule Q := by
  refine ⟨h.onward, fun he hr => ?_⟩
  obtain ⟨ts, us, hts, hus, hq⟩ := h.keeps he hr
  exact ⟨ts, us, hts, hus, hQ _ _ _ _ hq⟩

/-- More tokens may be dropped. -/
theorem drop (h : Salvages rule fun i us a j => ∃ vs, vs.Sublist us ∧ Q i vs a j) :
    Salvages rule Q := by
  refine ⟨h.onward, fun he hr => ?_⟩
  obtain ⟨ts, us, hts, hus, vs, hvs, hq⟩ := h.keeps he hr
  exact ⟨ts, vs, hts, hvs.trans hus, hq⟩

theorem pure {a : α} (h : ∀ i, Q i [] a i) : Salvages (Pure.pure a) Q :=
  ⟨fun c => .refl c, fun _ hr => by cases hr; exact ⟨[], [], rfl, .slnil, h _⟩⟩

theorem fail (fault : ParseFault) : Salvages (Rule.fail fault : Rule α) Q :=
  ⟨fun c => .refl c, fun _ hr => by cases hr⟩

/-- The second rule begins where the first one ended, knowing what it found. -/
theorem bind {first : Rule β} {next : β → Rule α} (h : Salvages first P)
    (hn : ∀ b, Salvages (next b) fun j us a k => ∀ i vs, P i vs b j → Q i (vs ++ us) a k) :
    Salvages (first >>= next) Q := by
  constructor
  · intro c
    have hc := h.onward c
    show c.Onward (cursorOf (EStateM.bind first next c))
    unfold EStateM.bind
    split
    next b c' hr =>
      rw [hr] at hc
      exact hc.trans ((hn b).onward c')
    next e c' hr => rwa [hr] at hc
  · intro c a c'' he hr
    obtain ⟨b, c', hb, hr⟩ := Carries.bind_eq_ok hr
    obtain ⟨ts, us, hts, hus, hp⟩ := h.keeps he hb
    have he' : c'.eof.isEof = true := (h.onward_ok hb).eof ▸ he
    obtain ⟨ts', us', hts', hus', hq⟩ := (hn b).keeps he' hr
    exact ⟨ts ++ ts', us ++ us', by rw [hts, hts', List.append_assoc], hus.append hus',
      hq _ _ hp⟩

/-- A rule whose result is only wrapped. -/
theorem last {first : Rule β} {f : β → α} (h : Salvages first fun i us b j => Q i us (f b) j) :
    Salvages (first >>= fun b => Pure.pure (f b)) Q :=
  h.bind fun _ => .pure fun _ _ _ hq => by rwa [List.append_nil]

theorem map {first : Rule β} {f : β → α} (h : Salvages first fun i us b j => Q i us (f b) j) :
    Salvages (f <$> first) Q := by
  rw [← bind_pure_comp]
  exact h.last

theorem ite {p : Prop} [Decidable p] {other : Rule α} (h : p → Salvages rule Q)
    (h' : ¬ p → Salvages other Q) : Salvages (if p then rule else other) Q := by
  split
  next hp => exact h hp
  next hp => exact h' hp

/-- A rule that only asks something of the place where it is. -/
theorem look (ask : Cursor → β) {next : β → Rule α} (hn : ∀ b, Salvages (next b) Q) :
    Salvages ((fun c => .ok (ask c) c) >>= next) Q :=
  ⟨fun c => (hn (ask c)).onward c, fun {c _ _} he hr => (hn (ask c)).keeps he hr⟩

theorem sees {s : Symbol} {next : Bool → Rule α} (hn : ∀ b, Salvages (next b) Q) :
    Salvages (Rule.sees s >>= next) Q := look (·.sees s) hn

theorem atEnd {next : Bool → Rule α} (hn : ∀ b, Salvages (next b) Q) :
    Salvages (Rule.atEnd >>= next) Q := look (·.rest.isEmpty) hn

theorem report {e : ParseError} {next : Unit → Rule α} (hn : Salvages (next ()) Q) :
    Salvages (Rule.report e >>= next) Q :=
  ⟨fun c => (c.onward_report e).trans (hn.onward (c.report e)), fun {c _ _} he hr =>
    hn.keeps (c := c.report e) he hr⟩

/-- A limit that is reported when it is passed. -/
theorem limit {size : Nat} {fault : ParseFault} {next : Unit → Rule α}
    (hn : Salvages (next ()) Q) :
    Salvages (if maxArity ≤ size then Rule.peek >>= fun t => Rule.report ⟨t, fault⟩ >>= next
      else next ()) Q :=
  .ite (fun _ => look Cursor.peek fun _ => report hn) fun _ => hn

theorem freshId {next : NodeId → Rule α}
    (hn : ∀ id, Salvages (next id) fun j us a k => j = id + 1 → Q id us a k) :
    Salvages (Rule.freshId >>= next) Q := by
  have onward (c : Cursor) : c.Onward { c with nextId := c.nextId + 1 } :=
    ⟨⟨rfl, Nat.le_succ _, List.prefix_rfl, id⟩, List.suffix_rfl⟩
  refine ⟨fun c => (onward c).trans ((hn c.nextId).onward _), fun {c a c'} he hr => ?_⟩
  obtain ⟨ts, us, hts, hus, hq⟩ :=
    (hn c.nextId).keeps (c := { c with nextId := c.nextId + 1 }) he hr
  exact ⟨ts, us, hts, hus, hq rfl⟩

/-- What follows a token that was taken. -/
theorem behind {c c' : Cursor} {t : Token} {tail : List Token} {a : α} (he : c.eof.isEof = true)
    (hc : c.rest = t :: tail) (h : Salvages rule fun i us a j => Q i (t :: us) a j)
    (hr : rule c.advance = .ok a c') :
    ∃ ts us, c.rest = ts ++ c'.rest ∧ us.Sublist ts ∧ Q c.nextId us a c'.nextId := by
  have htook := took_advance hc
  obtain ⟨ts, us, hts, hus, hq⟩ := h.keeps (c.onward_advance.eof ▸ he) hr
  refine ⟨t :: ts, t :: us, ?_, hus.cons_cons t, htook.2 ▸ hq⟩
  rw [htook.1, hts, List.cons_append]

theorem accept {symbols : List Symbol} {next : Option Token → Rule α}
    (hsome : ∀ t, Salvages (next (some t)) fun i us a j =>
      symbols.any t.is = true → Q i (t :: us) a j)
    (hnone : Salvages (next none) Q) : Salvages (Rule.accept? symbols >>= next) Q := by
  refine ⟨fun c => ?_, fun {c a c'} he hr => ?_⟩
  · rcases Carries.stops_or_meets symbols c.rest with hstops | ⟨t, rest, hrest, ht⟩
    · rw [Carries.bind_of_ok (Carries.accept_none hstops)]
      exact hnone.onward c
    · rw [Carries.bind_of_ok (Carries.accept_some hrest ht)]
      exact c.onward_advance.trans ((hsome t).onward c.advance)
  · rcases Carries.stops_or_meets symbols c.rest with hstops | ⟨t, rest, hrest, ht⟩
    · rw [Carries.bind_of_ok (Carries.accept_none hstops)] at hr
      exact hnone.keeps he hr
    · rw [Carries.bind_of_ok (Carries.accept_some hrest ht)] at hr
      exact behind he hrest ((hsome t).imp fun _ _ _ _ hq => hq ht) hr

theorem require {s : Symbol} {place : Place} {next : Token → Rule α}
    (hn : ∀ t, Salvages (next t) fun i us a j => t.is s = true → Q i (t :: us) a j) :
    Salvages (Rule.require s place >>= next) Q := by
  have hrequire : Salvages (Rule.require s place) fun i us t j =>
      us = [t] ∧ t.is s = true ∧ i = j :=
    accept (fun t => .pure fun i ht => ⟨rfl, by simpa using ht, rfl⟩) (fail _)
  refine hrequire.bind fun t => (hn t).imp fun j us a k hq i vs hp => ?_
  obtain ⟨rfl, ht, rfl⟩ := hp
  exact hq ht

theorem requireName {of : Named} {next : Token → Rule α}
    (hn : ∀ t, Salvages (next t) fun i us a j => t.isIdentifier = true → Q i (t :: us) a j) :
    Salvages (Rule.requireName of >>= next) Q := by
  have hcases (c : Cursor) : (∃ f, Rule.requireName of c = Rule.fail f c) ∨
      ∃ t rest, c.rest = t :: rest ∧ t.isIdentifier = true ∧
        Rule.requireName of c = .ok t c.advance := by
    unfold Rule.requireName
    split
    next t rest h =>
      split
      next ht => exact .inr ⟨t, rest, h, ht, rfl⟩
      next => exact .inl ⟨_, rfl⟩
    next => exact .inl ⟨_, rfl⟩
  refine ⟨fun c => ?_, fun {c a c'} he hr => ?_⟩
  · rcases hcases c with ⟨f, hf⟩ | ⟨t, rest, hrest, ht, hok⟩
    · show c.Onward (cursorOf (EStateM.bind (Rule.requireName of) next c))
      rw [EStateM.bind, hf]
      exact .refl c
    · rw [Carries.bind_of_ok hok]
      exact c.onward_advance.trans ((hn t).onward c.advance)
  · rcases hcases c with ⟨f, hf⟩ | ⟨t, rest, hrest, ht, hok⟩
    · obtain ⟨_, _, hb, -⟩ := Carries.bind_eq_ok hr
      rw [hf] at hb
      cases hb
    · rw [Carries.bind_of_ok hok] at hr
      exact behind he hrest ((hn t).imp fun _ _ _ _ hq => hq ht) hr

/-- A rule that looks at the next token and takes it, or else fails. -/
theorem token {next : Token → Rule α} (hn : ∀ t, (∃ f, next t = Rule.fail f) ∨
      ∃ rest : Unit → Rule α, next t = (modify Cursor.advance >>= rest) ∧ t.isEof = false ∧
        Salvages (rest ()) fun i us a j => Q i (t :: us) a j) :
    Salvages (Rule.peek >>= next) Q := by
  refine ⟨fun c => ?_, fun {c a c'} he hr => ?_⟩
  · show c.Onward (cursorOf (next c.peek c))
    rcases hn c.peek with ⟨f, hf⟩ | ⟨rest, hnext, -, h⟩
    · rw [hf]
      exact .refl c
    · rw [hnext]
      exact c.onward_advance.trans (h.onward c.advance)
  · have hr : next c.peek c = .ok a c' := hr
    rcases hn c.peek with ⟨f, hf⟩ | ⟨rest, hnext, ht, h⟩
    · rw [hf] at hr
      cases hr
    · rw [hnext] at hr
      cases hrest : c.rest with
      | nil =>
        rw [Cursor.peek, hrest, List.headD_nil, he] at ht
        cases ht
      | cons t tail =>
        have hpeek : c.peek = t := by rw [Cursor.peek, hrest]; rfl
        rw [hpeek] at h
        exact hrest ▸ behind he hrest h hr

/-- Where a rule fails, all tokens that it took are dropped. -/
theorem recover {handler : ParseError → Rule α} (h : Salvages rule Q)
    (hh : ∀ e c, c.Onward (cursorOf (handler e c)) ∧
      ∀ a c', handler e c = .ok a c' → ∀ i, i ≤ c'.nextId → Q i [] a c'.nextId) :
    Salvages (Rule.recover rule handler) Q := by
  refine ⟨fun c => ?_, fun {c a c''} he hr => ?_⟩
  · have hc := h.onward c
    unfold Rule.recover
    split
    next hok => rwa [hok] at hc
    next e c' herror =>
      rw [herror] at hc
      exact hc.trans (hh e c').1
  · have hc := h.onward c
    unfold Rule.recover at hr
    split at hr
    next hok =>
      cases hr
      exact h.keeps he hok
    next e c' herror =>
      rw [herror] at hc
      have hc' := (hh e c').1
      rw [hr] at hc'
      obtain ⟨ts, hts⟩ := (hc.trans hc').rest
      exact ⟨ts, [], hts.symm, List.nil_sublist ts, (hh e c').2 a c'' hr _ (hc.trans hc').nextId⟩

/-- What a rule finds is as stated if its body finds that, whenever its uses of itself do. -/
theorem fix {body : (β → Rule α) → β → Rule α} {Q : β → NodeId → List Token → α → NodeId → Prop}
    (h : ∀ again, (∀ b, Salvages (again b) (Q b)) → ∀ b, Salvages (body again b) (Q b)) (b : β) :
    Salvages (Rule.fix body b) (Q b) := by
  have hbelow (n : Nat) : ∀ b, Salvages (below n (Rule.fix body) b) (Q b) := by
    induction n using Nat.strongRecOn with
    | ind n ih =>
      intro b
      refine ⟨fun c => ?_, fun {c a c'} he hr => ?_⟩
      · unfold below
        split
        next hc =>
          rw [fix_eq]
          exact (h _ (ih c.left hc) b).onward c
        next => exact .refl c
      · unfold below at hr
        split at hr
        next hc =>
          rw [fix_eq] at hr
          exact (h _ (ih c.left hc) b).keeps he hr
        next => cases hr
  refine ⟨fun c => ?_, fun {c a c'} he hr => ?_⟩
  · rw [fix_eq]
    exact (h _ (hbelow c.left) b).onward c
  · rw [fix_eq] at hr
    exact (h _ (hbelow c.left) b).keeps he hr

end Salvages

end Rule

open Rule

/-- Tokens that the grammar derives a tree from, and numbers for the references in it. -/
def Derives {α : Type} (P : List Token → α → Prop) (refs : α → List Reference) (i : NodeId)
    (us : List Token) (a : α) (j : NodeId) : Prop :=
  P us a ∧ Span i j (refs a)

theorem Derives.imp {α : Type} {P P' : List Token → α → Prop} {refs : α → List Reference}
    (h : ∀ us a, P us a → P' us a) (i : NodeId) (us : List Token) (a : α) (j : NodeId) :
    Derives P refs i us a j → Derives P' refs i us a j := And.imp_left (h us a)

/-! ## Expressions -/

section

variable {E : Rule Expr} (hE : Salvages E (Derives Ebnf.Assignment Expr.references))

include hE

theorem salvages_primary : Salvages (primary E) (Derives Ebnf.Primary Expr.references) := by
  have constant {t : Token} {l : Literal} (hl : Ebnf.Constant t l) :
      Salvages (Pure.pure (.literal l) : Rule Expr) fun i us e j =>
        Derives Ebnf.Primary Expr.references i (t :: us) e j :=
    .pure fun i => ⟨.literal hl, .nil (Nat.le_refl i)⟩
  refine .token fun t => ?_
  split
  next hk =>
    exact .inr ⟨_, rfl, by simp [Token.isEof, hk], constant (.false (Token.is_iff.2 hk))⟩
  next hk => exact .inr ⟨_, rfl, by simp [Token.isEof, hk], constant (.true (Token.is_iff.2 hk))⟩
  next hk => exact .inr ⟨_, rfl, by simp [Token.isEof, hk], constant (.nil (Token.is_iff.2 hk))⟩
  next hk => exact .inr ⟨_, rfl, by simp [Token.isEof, hk], constant (.number hk)⟩
  next hk => exact .inr ⟨_, rfl, by simp [Token.isEof, hk], constant (.string hk)⟩
  next hk =>
    refine .inr ⟨_, rfl, by simp [Token.isEof, hk], .freshId fun id => .pure ?_⟩
    rintro _ rfl
    exact ⟨.this (Token.is_iff.2 hk), .single .receiver t⟩
  next hk =>
    refine .inr ⟨_, rfl, by simp [Token.isEof, hk], .freshId fun id => .pure ?_⟩
    rintro _ rfl
    exact ⟨.variable (by simp [Token.isIdentifier, hk]), .single .read t⟩
  next hk =>
    refine .inr ⟨_, rfl, by simp [Token.isEof, hk], .bind hE fun e => .require fun close =>
      .pure fun j hclose i us he => ?_⟩
    exact ⟨.grouping (Token.is_iff.2 hk) he.1 hclose, he.2⟩
  next => exact .inl ⟨_, rfl⟩

theorem salvages_arguments :
    Salvages (arguments E) (Derives Ebnf.Arguments Expr.allReferences) := by
  refine .sees fun _ => .ite (fun _ => .pure fun i => ⟨.none, .nil (Nat.le_refl i)⟩) fun _ => ?_
  refine .imp (.fix (Q := fun found i us es j => ∃ new, es = found.reverse ++ new ∧
    Derives Ebnf.ArgumentList Expr.allReferences i us new j) (fun again hagain found => ?_) []) ?_
  · unfold argumentsStep
    refine .limit (.bind hE fun e => .accept (fun comma => ?_) (.pure fun j i us he => ?_))
    · refine (hagain (e :: found)).imp fun j us es k hes hcomma i vs he => ?_
      obtain ⟨new, rfl, hnew, hspan⟩ := hes
      exact ⟨e :: new, by simp, .more he.1 (by simpa using hcomma) hnew, he.2.append hspan⟩
    · refine ⟨[e], by simp, ?_, ?_⟩
      · rw [List.append_nil]
        exact .last he.1
      · rw [Expr.allReferences, Expr.allReferences, List.append_nil]
        exact he.2
  · rintro i us es j ⟨new, rfl, hnew⟩
    exact hnew.imp_left .some

/-- An expression that goes on from this one, which was read before. -/
def Extends (P : List Token → Expr → Prop) (first : Expr) (i : NodeId) (us : List Token) (e : Expr)
    (j : NodeId) : Prop :=
  ∀ h vs, Derives P Expr.references h vs first i → Derives P Expr.references h (vs ++ us) e j

omit hE in
theorem Extends.refl {P : List Token → Expr → Prop} (e : Expr) (i : NodeId) :
    Extends P e i [] e i := fun _ vs h => by rwa [List.append_nil]

theorem salvages_call : Salvages (call E) (Derives Ebnf.Call Expr.references) := by
  refine .bind (salvages_primary hE) fun e => Salvages.imp (.fix (Q := Extends Ebnf.Call)
    (fun again hagain callee => ?_) e) ?_
  · refine .accept (fun t => .ite (fun ht => ?_) fun ht => ?_) (.pure (.refl callee))
    · refine .bind (salvages_arguments hE) fun args => .require fun close => (hagain _).imp ?_
      intro k us e l he hclose j ts hargs _ i vs hcallee
      have hcall := he i (vs ++ t :: (ts ++ [close]))
        ⟨.call hcallee.1 ht hargs.1 hclose, hcallee.2.append hargs.2⟩
      rw [show vs ++ t :: (ts ++ close :: us) = vs ++ t :: (ts ++ [close]) ++ us by simp]
      exact hcall
    · refine .requireName fun name => (hagain _).imp ?_
      intro j us e k he hname hany i vs hcallee
      have hdot : t.is .dot = true := by simpa [ht] using hany
      have hget := he i (vs ++ [t, name]) ⟨.property hcallee.1 hdot hname, hcallee.2⟩
      rw [show vs ++ t :: name :: us = vs ++ [t, name] ++ us by simp]
      exact hget
  · intro j us e' k h i vs hprimary
    exact h i vs (hprimary.imp_left .primary)

theorem salvages_unary : Salvages (unary E) (Derives Ebnf.Unary Expr.references) := by
  refine .fix (Q := fun _ => Derives Ebnf.Unary Expr.references) (fun again hagain _ => ?_) ()
  refine .accept (fun op => .last ?_) ((salvages_call hE).imp (Derives.imp fun _ _ => .call))
  exact (hagain ()).imp fun i us e j he hop => ⟨.operator hop he.1, he.2⟩

omit hE in
theorem salvages_chain (layer : Ebnf.Layer) {operand : Rule Expr}
    (h : Salvages operand (Derives (Ebnf.Operand layer) Expr.references)) :
    Salvages (chain ⟨layer.operators, layer.node⟩ operand)
      (Derives (Ebnf.Operation layer) Expr.references) := by
  refine .bind h fun e => Salvages.imp (.fix (Q := Extends (Ebnf.Operation layer))
    (fun again hagain left => ?_) e) ?_
  · refine .accept (fun op => .bind h fun right => (hagain _).imp ?_) (.pure (.refl left))
    intro k us e l he j ts hright hop i vs hleft
    have hnode := he i (vs ++ op :: ts)
      ⟨.operator hleft.1 hop hright.1, references_node layer .. ▸ hleft.2.append hright.2⟩
    rw [show vs ++ op :: (ts ++ us) = vs ++ op :: ts ++ us by simp]
    exact hnode
  · intro j us e' k h i vs hoperand
    exact h i vs (hoperand.imp_left .operand)

theorem salvages_operation :
    Salvages (operation E) (Derives (Ebnf.Operation .logicOr) Expr.references) := by
  have tighter {layer next : Ebnf.Layer} (h : layer.tighter? = some next) {operand : Rule Expr}
      (ho : Salvages operand (Derives (Ebnf.Operation next) Expr.references)) :
      Salvages operand (Derives (Ebnf.Operand layer) Expr.references) :=
    ho.imp (Derives.imp fun _ _ => .layer h)
  have factor := salvages_chain .factor
    ((salvages_unary hE).imp (Derives.imp fun _ _ => .unary rfl))
  have term := salvages_chain .term (tighter rfl factor)
  have comparison := salvages_chain .comparison (tighter rfl term)
  have equality := salvages_chain .equality (tighter rfl comparison)
  have logicAnd := salvages_chain .logicAnd (tighter rfl equality)
  exact salvages_chain .logicOr (tighter rfl logicAnd)

/-- Behind an expression that cannot be assigned to, the sign and the value are dropped. -/
theorem salvages_assignment :
    Salvages (assignment E) (Derives Ebnf.Assignment Expr.references) := by
  refine .drop (.bind (salvages_operation hE) fun target => .accept (fun equals => ?_) (.pure ?_))
  · refine .bind hE fun value => ?_
    split
    next id name =>
      refine .freshId fun id' => .pure ?_
      rintro _ rfl j ts hvalue hequals i vs htarget
      obtain ⟨rfl, hname⟩ := variable_of_operation htarget.1
      have hspan := (Span.nil htarget.2.le).append (hvalue.2.append_comm (.single .write name))
      refine ⟨_, .refl _, .variable hname (by simpa using hequals) ?_, hspan⟩
      rw [List.append_nil]
      exact hvalue.1
    next object name =>
      refine .pure fun k j ts hvalue hequals i vs htarget => ?_
      obtain ⟨us, dot, rfl, hobject, hdot, hname⟩ := property_of_operation htarget.1
      refine ⟨_, .refl _, ?_, htarget.2.append hvalue.2⟩
      have := Ebnf.Assignment.property hobject hdot hname (by simpa using hequals) hvalue.1
      simpa using this
    next =>
      refine .report (.pure fun k j ts hvalue _ i vs htarget => ?_)
      refine ⟨vs, List.sublist_append_left .., .operation htarget.1, ?_⟩
      have := htarget.2.append (Span.nil hvalue.2.le)
      rwa [List.append_nil] at this
  · intro j i vs htarget
    rw [List.append_nil]
    exact ⟨vs, .refl vs, .operation htarget.1, htarget.2⟩

end

/-- An expression is one of the grammar, whatever was reported on the way. -/
theorem salvages_expression :
    Salvages expression (Derives Ebnf.Assignment Expr.references) :=
  .fix (Q := fun _ => Derives Ebnf.Assignment Expr.references)
    (fun _ hagain _ => salvages_assignment (hagain ())) ()

end Lox.Grammar
