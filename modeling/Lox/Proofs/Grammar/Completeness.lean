/-
Every expression of the grammar is read, and read as the tree it stands for,
where a token follows that can end an expression. A loop that reads suffixes is
given by what it does next: the rule that starts it at the beginning of an
expression yields what the loop yields from its end on.
-/
import Lox.Proofs.Grammar.Ebnf
import Lox.Proofs.Grammar.Yields

namespace Lox.Grammar

open Rule

/-! ## First tokens -/

/-- The token is one of these symbols, or it is no symbol at all. -/
def Starts (symbols : List Symbol) (t : Token) : Prop :=
  symbols.any t.is = true ∨ ∀ s, t.is s = false

theorem Starts.any_eq_false {symbols others : List Symbol} {t : Token} (h : Starts symbols t)
    (hd : ∀ s ∈ symbols, s ∉ others) : others.any t.is = false := by
  rcases h with h | h
  · exact Token.any_is_eq_false h hd
  · exact List.any_eq_false.2 fun s _ => by rw [h s]; exact Bool.false_ne_true

theorem Starts.mono {symbols others : List Symbol} {t : Token} (h : Starts symbols t)
    (hs : symbols ⊆ others) : Starts others t :=
  h.imp (fun h => by
    obtain ⟨s, hs', his⟩ := List.any_eq_true.1 h
    exact Token.any_is_of_is his (hs hs')) id

theorem starts_of_is {symbols : List Symbol} {t : Token} {s : Symbol} (h : t.is s = true)
    (hs : s ∈ symbols) : Starts symbols t := .inl (Token.any_is_of_is h hs)

theorem starts_of_isIdentifier {symbols : List Symbol} {t : Token} (h : t.isIdentifier = true) :
    Starts symbols t := .inr fun s => by
  unfold Token.isIdentifier at h
  unfold Token.is
  split at h
  next hk => rw [hk]
  next => cases h

/-- The symbols with which a primary expression begins. -/
def primaryStarts : List Symbol := [.kwTrue, .kwFalse, .kwNil, .kwThis, .leftParen]

/-- The symbols with which an expression begins. -/
def expressionStarts : List Symbol := unaryOperators ++ primaryStarts

/-- The tokens begin with one that these symbols start. -/
def Begins (symbols : List Symbol) (ts : List Token) : Prop :=
  ∃ t us, ts = t :: us ∧ Starts symbols t

theorem Begins.append {symbols : List Symbol} {ts : List Token} (h : Begins symbols ts)
    (us : List Token) : Begins symbols (ts ++ us) := by
  obtain ⟨t, vs, rfl, ht⟩ := h
  exact ⟨t, vs ++ us, rfl, ht⟩

theorem Begins.mono {symbols others : List Symbol} {ts : List Token} (h : Begins symbols ts)
    (hs : symbols ⊆ others) : Begins others ts := by
  obtain ⟨t, us, rfl, ht⟩ := h
  exact ⟨t, us, rfl, ht.mono hs⟩

theorem Begins.stops {symbols others : List Symbol} {ts : List Token} (h : Begins symbols ts)
    (hd : ∀ s ∈ symbols, s ∉ others) : Stops others ts := by
  obtain ⟨t, us, rfl, ht⟩ := h
  exact stops_cons (ht.any_eq_false hd) us

theorem starts_constant {t : Token} {l : Literal} (h : Ebnf.Constant t l) :
    Starts primaryStarts t := by
  cases h with
  | number hk => exact .inr fun s => by simp [Token.is, hk]
  | string hk => exact .inr fun s => by simp [Token.is, hk]
  | true h | false h | nil h => exact starts_of_is h (by decide)

theorem begins_primary {ts : List Token} {e : Expr} (h : Ebnf.Primary ts e) :
    Begins primaryStarts ts := by
  cases h with
  | literal h => exact ⟨_, _, rfl, starts_constant h⟩
  | this h => exact ⟨_, _, rfl, starts_of_is h (by decide)⟩
  | «variable» h => exact ⟨_, _, rfl, starts_of_isIdentifier h⟩
  | grouping h => exact ⟨_, _, rfl, starts_of_is h (by decide)⟩

theorem begins_call : ∀ {ts : List Token} {e : Expr}, Ebnf.Call ts e → Begins primaryStarts ts
  | _, _, .primary h => begins_primary h
  | _, _, .call h _ _ _ => (begins_call h).append _
  | _, _, .property h _ _ => (begins_call h).append _

theorem begins_unary {ts : List Token} {e : Expr} (h : Ebnf.Unary ts e) :
    Begins expressionStarts ts := by
  cases h with
  | operator h =>
    have hs : Starts unaryOperators _ := .inl h
    exact ⟨_, _, rfl, hs.mono (List.subset_append_left _ _)⟩
  | call h => exact (begins_call h).mono (List.subset_append_right _ _)

mutual

theorem begins_operation : ∀ {layer : Ebnf.Layer} {ts : List Token} {e : Expr},
    Ebnf.Operation layer ts e → Begins expressionStarts ts
  | _, _, _, .operand h => begins_operand h
  | _, _, _, .operator h _ _ => (begins_operation h).append _

theorem begins_operand : ∀ {layer : Ebnf.Layer} {ts : List Token} {e : Expr},
    Ebnf.Operand layer ts e → Begins expressionStarts ts
  | _, _, _, .layer _ h => begins_operation h
  | _, _, _, .unary _ h => begins_unary h

end

theorem begins_assignment {ts : List Token} {e : Expr} (h : Ebnf.Assignment ts e) :
    Begins expressionStarts ts := by
  cases h with
  | «variable» h => exact ⟨_, _, rfl, starts_of_isIdentifier h⟩
  | property h =>
    exact ((begins_call h).mono (List.subset_append_right _ _)).append _
  | operation h => exact begins_operation h

theorem begins_argumentList {ts : List Token} {es : List Expr} (h : Ebnf.ArgumentList ts es) :
    Begins expressionStarts ts := by
  cases h with
  | last h => exact begins_assignment h
  | more h => exact (begins_assignment h).append _

/-! ## Layers of operators -/

/-- Where a layer stands among the levels. -/
def rank : Ebnf.Layer → Nat
  | .logicOr => 0
  | .logicAnd => 1
  | .equality => 2
  | .comparison => 3
  | .term => 4
  | .factor => 5

/-- The rule of a layer. -/
def layerRule (E : Rule Expr) (layer : Ebnf.Layer) : Rule Expr :=
  (levels.drop (rank layer)).foldr chain (unary E)

/-- The rule of the operands of a layer. -/
def operandRule (E : Rule Expr) (layer : Ebnf.Layer) : Rule Expr :=
  (levels.drop (rank layer + 1)).foldr chain (unary E)

/-- The symbols that may go on an operand of a layer. -/
def tighterSymbols (layer : Ebnf.Layer) : List Symbol :=
  (levels.drop (rank layer + 1)).flatMap Level.operators ++ [.leftParen, .dot]

theorem layerRule_eq (E : Rule Expr) (layer : Ebnf.Layer) :
    layerRule E layer = chain ⟨layer.operators, layer.node⟩ (operandRule E layer) := by
  cases layer <;> rfl

theorem operandRule_layer (E : Rule Expr) {layer next : Ebnf.Layer}
    (h : layer.tighter? = some next) : operandRule E layer = layerRule E next := by
  cases layer <;> cases h <;> rfl

theorem operandRule_unary (E : Rule Expr) {layer : Ebnf.Layer} (h : layer.tighter? = none) :
    operandRule E layer = unary E := by
  cases layer <;> cases h <;> rfl

theorem tighterSymbols_layer {layer next : Ebnf.Layer} (h : layer.tighter? = some next) :
    tighterSymbols layer = next.operators ++ tighterSymbols next := by
  cases layer <;> cases h <;> rfl

theorem tighterSymbols_unary {layer : Ebnf.Layer} (h : layer.tighter? = none) :
    tighterSymbols layer = [.leftParen, .dot] := by
  cases layer <;> cases h <;> rfl

/-- An operator of a layer does not go on an operand of it. -/
theorem stops_operator {layer : Ebnf.Layer} {op : Token} (h : layer.operators.any op.is = true)
    (rest : List Token) : Stops (tighterSymbols layer) (op :: rest) :=
  stops_cons (Token.any_is_eq_false h (by cases layer <;> decide)) rest

/-- The symbols behind an expression. -/
def enders : List Symbol := [.semicolon, .rightParen, .comma]

theorem bare_node (layer : Ebnf.Layer) {left left' right right' : Expr} {op : Token}
    (hl : left'.bare = left.bare) (hr : right'.bare = right.bare) :
    (layer.node left' op right').bare = (layer.node left op right).bare := by
  cases layer <;> simp only [Ebnf.Layer.node, Expr.bare, hl, hr]

/-! ## Rules that find no suffix -/

section

variable {E : Rule Expr} {c : Cursor} {P : Expr → Prop} {rest : List Token}

theorem Rule.Yields.chain {level : Level} {operand : Rule Expr} (h : operand.Yields c P rest)
    (hs : Stops level.operators rest) : (chain level operand).Yields c P rest := by
  refine h.bind fun e c' he hrest => .fix ?_
  subst hrest
  exact .accept_none hs (.pure he rfl)

theorem Rule.Yields.operation (h : (unary E).Yields c P rest)
    (hs : Stops (levels.flatMap Level.operators) rest) : (operation E).Yields c P rest := by
  have go (ls : List Level) (hs : Stops (ls.flatMap Level.operators) rest) :
      (ls.foldr Grammar.chain (unary E)).Yields c P rest := by
    induction ls with
    | nil => exact h
    | cons level ls ih =>
      rw [List.flatMap_cons] at hs
      exact (ih hs.append_right).chain hs.append_left
  exact go levels hs

theorem Rule.Yields.unary (h : (call E).Yields c P rest) (hs : Stops unaryOperators c.rest) :
    (unary E).Yields c P rest :=
  .fix (.accept_none hs h)

theorem Rule.Yields.call (h : (primary E).Yields c P rest) (hs : Stops [.leftParen, .dot] rest) :
    (call E).Yields c P rest := by
  refine h.bind fun e c' he hrest => .fix ?_
  subst hrest
  exact .accept_none hs (.pure he rfl)

theorem Rule.Yields.variable {name : Token} (h : c.rest = name :: rest)
    (hn : name.isIdentifier = true) :
    (primary E).Yields c (fun e => ∃ id, e = .variable id name) rest := by
  have hk : name.kind = .identifier := by
    unfold Token.isIdentifier at hn
    split at hn
    next hk => exact hk
    next => cases hn
  refine .peek h ?_
  simp only [hk]
  refine (Yields.advance h).bind fun _ c' _ hrest => Yields.freshId.bind fun id c'' _ hrest' => ?_
  exact .pure ⟨id, rfl⟩ (hrest'.trans hrest)

end

/-! ## Expressions -/

/-- An expression, where fewer than `n` tokens are ahead. -/
def within (n : Nat) : Rule Expr := below n (fix fun again _ => assignment (again ())) ()

theorem Rule.Yields.within {n : Nat} {c : Cursor} {P : Expr → Prop} {rest : List Token}
    (hc : c.left < n) (h : expression.Yields c P rest) : (within n).Yields c P rest :=
  .below hc h

/-- The tree is the same up to its numbers. -/
abbrev Same (e e' : Expr) : Prop := e'.bare = e.bare

mutual

theorem yields_assignment : ∀ {ts : List Token} {e : Expr}, Ebnf.Assignment ts e →
    ∀ {c : Cursor} {rest : List Token}, c.rest = ts ++ rest → Meets enders rest → e.WithinArity →
    expression.Yields c (Same e) rest
  | _, _, @Ebnf.Assignment.variable name equals _ ts _ hname hequals he, c, rest, hc, hrest, hw => by
    have hunary : Stops unaryOperators c.rest := by
      rw [hc]
      have hstart : Starts [] name := starts_of_isIdentifier hname
      exact stops_cons (hstart.any_eq_false fun _ hs => nomatch hs) _
    have htarget : (operation (Grammar.within c.left)).Yields c
        (fun e => ∃ id, e = .variable id name) (equals :: (ts ++ rest)) :=
      (((Yields.variable hc hname).call (stops_of_is hequals (by decide) _)).unary hunary).operation
        (stops_of_is hequals (by decide) _)
    refine .fix (htarget.bind fun target c₁ ht hc₁ => ?_)
    obtain ⟨id, rfl⟩ := ht
    refine (Yields.accept hc₁ (by simpa using hequals)).bind fun op? c₂ hop hc₂ => ?_
    subst hop
    have hlt : c₂.left < c.left := by
      simp only [Cursor.left_eq, hc, hc₂, List.length_append, List.length_cons]
      omega
    refine ((yields_assignment he hc₂ hrest hw).within hlt).bind fun value c₃ hv hc₃ => ?_
    refine Yields.freshId.bind fun id' c₄ _ hc₄ => .pure ?_ (hc₄.trans hc₃)
    exact congrArg (Expr.assign 0 name) hv
  | _, _, @Ebnf.Assignment.property us ts object _ dot name equals hobject hdot hname hequals he, c,
      rest, hc, hrest, hw => by
    have hc' : c.rest = us ++ (dot :: name :: equals :: (ts ++ rest)) := by simpa using hc
    have hunary : Stops unaryOperators c.rest := by
      rw [hc']
      exact ((begins_call hobject).append _).stops (by decide)
    have htarget : (operation (Grammar.within c.left)).Yields c
        (fun e => ∃ o', e = .get o' name ∧ Same object o') (equals :: (ts ++ rest)) := by
      refine (Yields.unary ?_ hunary).operation (stops_of_is hequals (by decide) _)
      refine yields_call hobject (Nat.le_refl _) hc' hw.1 fun o' c₁ ho' hc₁ => .fix ?_
      refine (Yields.accept hc₁ (Token.any_is_of_is hdot (by decide))).bind fun t? c₂ ht hc₂ => ?_
      subst ht
      have hparen : dot.is .leftParen = false := by
        simpa using @stops_of_is [.leftParen] _ _ hdot (by decide) [] dot [] rfl
      simp only [hparen, Bool.false_eq_true, if_false]
      refine (Yields.requireName hc₂ hname).bind fun name' c₃ hn hc₃ => ?_
      subst hn
      have hlt : c₃.left < c₁.left := by
        simp only [Cursor.left_eq, hc₁, hc₃, List.length_append, List.length_cons]
        omega
      refine .below hlt (.fix ?_)
      rw [← hc₃]
      refine .accept_none (hc₃ ▸ stops_of_is hequals (by decide) _) (.pure ⟨o', rfl, ho'⟩ rfl)
    refine .fix (htarget.bind fun target c₁ ht hc₁ => ?_)
    obtain ⟨o', rfl, ho'⟩ := ht
    refine (Yields.accept hc₁ (by simpa using hequals)).bind fun op? c₂ hop hc₂ => ?_
    subst hop
    have hlt : c₂.left < c.left := by
      simp only [Cursor.left_eq, hc, hc₂, List.length_append, List.length_cons]
      omega
    refine ((yields_assignment he hc₂ hrest hw.2).within hlt).bind fun value c₃ hv hc₃ => ?_
    exact .pure (by rw [Same, Expr.bare, Expr.bare, ho', hv]) hc₃
  | _, e, .operation h, c, rest, hc, hrest, hw => by
    have htarget : (operation (Grammar.within c.left)).Yields c (Same e) rest := by
      refine yields_operation h (Nat.le_refl _) hc (hrest.stops (by decide)) hw
        fun e' c' he' hc' => .fix ?_
      rw [← hc']
      exact .accept_none (hc' ▸ hrest.stops (by decide)) (.pure he' rfl)
    refine .fix (htarget.bind fun e' c' he' hc' => ?_)
    rw [← hc']
    exact .accept_none (hc' ▸ hrest.stops (by decide)) (.pure he' rfl)

theorem yields_operation : ∀ {layer : Ebnf.Layer} {ts : List Token} {e : Expr},
    Ebnf.Operation layer ts e → ∀ {n : Nat} {c : Cursor} {rest rest' : List Token}
    {P : Expr → Prop}, c.left ≤ n → c.rest = ts ++ rest → Stops (tighterSymbols layer) rest →
    e.WithinArity → (∀ e' c', Same e e' → c'.rest = rest →
      (chainFrom ⟨layer.operators, layer.node⟩ (operandRule (Grammar.within n) layer) e').Yields
        c' P rest') →
    (layerRule (Grammar.within n) layer).Yields c P rest'
  | layer, _, _, .operand h, n, c, rest, rest', P, hn, hc, hs, hw, k => by
    rw [layerRule_eq]
    exact (yields_operand h hn hc hs hw).bind k
  | layer, _, _, @Ebnf.Operation.operator _ ts us left op right hl hop hr, n, c, rest, rest', P, hn, hc,
      hs, hw, k => by
    have hw : left.WithinArity ∧ right.WithinArity := by cases layer <;> exact hw
    have hc : c.rest = ts ++ (op :: (us ++ rest)) := by simpa using hc
    refine yields_operation hl hn hc (stops_operator hop _) hw.1 fun left' c₁ hleft hc₁ => .fix ?_
    refine (Yields.accept hc₁ hop).bind fun op? c₂ hop? hc₂ => ?_
    subst hop?
    have hlt : c₂.left < c₁.left := by
      simp only [Cursor.left_eq, hc₁, hc₂, List.length_append, List.length_cons]
      omega
    have hle : c₁.left ≤ c.left := by
      simp only [Cursor.left_eq, hc₁, hc, List.length_append, List.length_cons]
      omega
    refine (yields_operand hr (by omega) hc₂ hs hw.2).bind fun right' c₃ hright hc₃ => ?_
    have hlt' : c₃.left < c₁.left := by
      simp only [Cursor.left_eq, hc₁, hc₃, List.length_append, List.length_cons]
      omega
    exact .below hlt' (k _ _ (bare_node layer hleft hright) hc₃)

theorem yields_operand : ∀ {layer : Ebnf.Layer} {ts : List Token} {e : Expr},
    Ebnf.Operand layer ts e → ∀ {n : Nat} {c : Cursor} {rest : List Token}, c.left ≤ n →
    c.rest = ts ++ rest → Stops (tighterSymbols layer) rest → e.WithinArity →
    (operandRule (Grammar.within n) layer).Yields c (Same e) rest
  | layer, _, _, .layer htighter h, n, c, rest, hn, hc, hs, hw => by
    rw [operandRule_layer _ htighter]
    rw [tighterSymbols_layer htighter] at hs
    refine yields_operation h hn hc hs.append_right hw fun e' c' he' hc' => .fix ?_
    rw [← hc'] at hs ⊢
    exact .accept_none hs.append_left (.pure he' rfl)
  | layer, _, _, .unary htighter h, n, c, rest, hn, hc, hs, hw => by
    rw [operandRule_unary _ htighter]
    rw [tighterSymbols_unary htighter] at hs
    exact yields_unary h hn hc hs hw

theorem yields_unary : ∀ {ts : List Token} {e : Expr}, Ebnf.Unary ts e →
    ∀ {n : Nat} {c : Cursor} {rest : List Token}, c.left ≤ n → c.rest = ts ++ rest →
    Stops [.leftParen, .dot] rest → e.WithinArity →
    (unary (Grammar.within n)).Yields c (Same e) rest
  | _, _, @Ebnf.Unary.operator op ts _ hop h, n, c, rest, hn, hc, hs, hw => by
    have hc : c.rest = op :: (ts ++ rest) := hc
    refine .fix ((Yields.accept hc hop).bind fun op? c' hop? hc' => ?_)
    subst hop?
    have hlt : c'.left < c.left := by
      simp only [Cursor.left_eq, hc, hc', List.length_append, List.length_cons]
      omega
    refine Yields.bind (.below hlt (yields_unary h (by omega) hc' hs hw)) fun e' c'' he' hc'' => ?_
    exact .pure (congrArg (Expr.unary op) he') hc''
  | _, _, .call h, n, c, rest, hn, hc, hs, hw => by
    have hunary : Stops unaryOperators c.rest := by
      rw [hc]
      exact ((begins_call h).append _).stops (by decide)
    refine Yields.unary (yields_call h hn hc hw fun e' c' he' hc' => .fix ?_) hunary
    rw [← hc'] at hs ⊢
    exact .accept_none hs (.pure he' rfl)

theorem yields_call : ∀ {ts : List Token} {e : Expr}, Ebnf.Call ts e →
    ∀ {n : Nat} {c : Cursor} {rest rest' : List Token} {P : Expr → Prop}, c.left ≤ n →
    c.rest = ts ++ rest → e.WithinArity →
    (∀ e' c', Same e e' → c'.rest = rest → (callFrom (Grammar.within n) e').Yields c' P rest') →
    (call (Grammar.within n)).Yields c P rest'
  | _, _, .primary h, n, c, rest, rest', P, hn, hc, hw, k => (yields_primary h hn hc hw).bind k
  | _, _, @Ebnf.Call.call us ts _ _ open' close hcallee hopen hargs hclose, n, c, rest, rest', P, hn, hc,
      hw, k => by
    have hc : c.rest = us ++ (open' :: (ts ++ close :: rest)) := by simpa using hc
    refine yields_call hcallee hn hc hw.1 fun callee' c₁ hcallee' hc₁ => .fix ?_
    refine (Yields.accept hc₁ (Token.any_is_of_is hopen (by decide))).bind fun t? c₂ ht hc₂ => ?_
    subst ht
    simp only [hopen, if_true]
    have hlt : c₂.left < n := by
      simp only [Cursor.left_eq, hc₂, hc, List.length_append, List.length_cons] at hn ⊢
      omega
    refine (yields_arguments hargs hlt hc₂ (meets_of_is hclose (by decide) _) hw.2.1 hw.2.2).bind
      fun args' c₃ hargs' hc₃ => ?_
    refine (Yields.require hc₃ hclose).bind fun close' c₄ hclose' hc₄ => ?_
    subst hclose'
    have hlt' : c₄.left < c₁.left := by
      simp only [Cursor.left_eq, hc₁, hc₄, List.length_append, List.length_cons]
      omega
    refine .below hlt' (k _ _ ?_ hc₄)
    rw [Same, Expr.bare, Expr.bare, hcallee', hargs']
  | _, _, @Ebnf.Call.property us _ dot name hobject hdot hname, n, c, rest, rest', P, hn, hc, hw, k => by
    have hc : c.rest = us ++ (dot :: name :: rest) := by simpa using hc
    refine yields_call hobject hn hc hw fun o' c₁ ho' hc₁ => .fix ?_
    refine (Yields.accept hc₁ (Token.any_is_of_is hdot (by decide))).bind fun t? c₂ ht hc₂ => ?_
    subst ht
    have hparen : dot.is .leftParen = false := by
      simpa using @stops_of_is [.leftParen] _ _ hdot (by decide) [] dot [] rfl
    simp only [hparen, Bool.false_eq_true, if_false]
    refine (Yields.requireName hc₂ hname).bind fun name' c₃ hn' hc₃ => ?_
    subst hn'
    have hlt : c₃.left < c₁.left := by
      simp only [Cursor.left_eq, hc₁, hc₃, List.length_cons]
      omega
    exact .below hlt (k _ _ (congrArg (Expr.get · name') ho') hc₃)

theorem yields_arguments : ∀ {ts : List Token} {es : List Expr}, Ebnf.Arguments ts es →
    ∀ {n : Nat} {c : Cursor} {rest : List Token}, c.left < n → c.rest = ts ++ rest →
    Meets [.rightParen] rest → es.length ≤ 255 → Expr.AllWithinArity es →
    (arguments (Grammar.within n)).Yields c (fun es' => Expr.bareAll es' = Expr.bareAll es) rest
  | _, _, .none, n, c, rest, hn, hc, hrest, hlength, hw => by
    obtain ⟨t, us, rfl, ht⟩ := hrest
    exact .sees_true hc (by simpa using ht) (.pure rfl hc)
  | _, _, .some h, n, c, rest, hn, hc, hrest, hlength, hw => by
    have hstop : Stops [.rightParen] c.rest := by
      rw [hc]
      exact ((begins_argumentList h).append _).stops (by decide)
    refine .sees_false hstop ((@yields_argumentList _ _ h _ _ _ [] hn hc hrest ?_ hw).imp ?_)
    · rw [List.length_nil]
      omega
    · rintro es' ⟨new, rfl, hnew⟩
      exact hnew

theorem yields_argumentList : ∀ {ts : List Token} {es : List Expr}, Ebnf.ArgumentList ts es →
    ∀ {n : Nat} {c : Cursor} {rest : List Token} {found : List Expr}, c.left < n →
    c.rest = ts ++ rest → Meets [.rightParen] rest → found.length + es.length ≤ 255 →
    Expr.AllWithinArity es →
    (argumentsFrom (Grammar.within n) found).Yields c
      (fun es' => ∃ new, es' = found.reverse ++ new ∧ Expr.bareAll new = Expr.bareAll es) rest
  | ts, _, .last (e := e) h, n, c, rest, found, hn, hc, hrest, hlength, hw => by
    have hle : ¬ maxArity ≤ found.length := by
      rw [List.length_singleton] at hlength
      exact Nat.not_le.2 hlength
    have hend : Meets enders rest := hrest.imp fun t ⟨us, hus, ht⟩ =>
      ⟨us, hus, Token.any_is_of_is (by simpa using ht) (by decide)⟩
    refine .fix ?_
    simp only [argumentsStep, hle, if_false]
    refine ((yields_assignment h hc hend hw.1).within hn).bind fun e' c' he' hc' => ?_
    rw [← hc'] at hrest ⊢
    refine .accept_none (hrest.stops (by decide)) (.pure ⟨[e'], by simp, ?_⟩ rfl)
    simp only [Expr.bareAll, he']
  | _, _, @Ebnf.ArgumentList.more ts us _ es comma h hcomma hmore, n, c, rest, found, hn, hc, hrest,
      hlength, hw => by
    have hle : ¬ maxArity ≤ found.length := by
      rw [List.length_cons] at hlength
      exact Nat.not_le.2 (by rw [maxArity]; omega)
    have hc : c.rest = ts ++ (comma :: (us ++ rest)) := by simpa using hc
    refine .fix ?_
    simp only [argumentsStep, hle, if_false]
    refine ((yields_assignment h hc (meets_of_is hcomma (by decide) _) hw.1).within hn).bind
      fun e' c₁ he' hc₁ => ?_
    refine (Yields.accept hc₁ (by simpa using hcomma)).bind fun comma? c₂ hcomma? hc₂ => ?_
    subst hcomma?
    have hlt : c₂.left < c.left := by
      simp only [Cursor.left_eq, hc, hc₂, List.length_append, List.length_cons]
      omega
    have hlength' : (e' :: found).length + es.length ≤ 255 := by
      rw [List.length_cons] at hlength ⊢
      omega
    refine Yields.imp (.below hlt (yields_argumentList hmore (by omega) hc₂ hrest hlength' hw.2)) ?_
    rintro es' ⟨new, rfl, hnew⟩
    refine ⟨e' :: new, by simp, ?_⟩
    rw [Expr.bareAll, Expr.bareAll, he', hnew]

theorem yields_primary : ∀ {ts : List Token} {e : Expr}, Ebnf.Primary ts e →
    ∀ {n : Nat} {c : Cursor} {rest : List Token}, c.left ≤ n → c.rest = ts ++ rest →
    e.WithinArity → (primary (Grammar.within n)).Yields c (Same e) rest
  | _, _, .literal (t := t) (l := l) h, n, c, rest, hn, hc, hw => by
    have hliteral : (do modify Cursor.advance; return .literal l : Rule Expr).Yields c
        (Same (.literal l)) rest :=
      (Yields.advance hc).bind fun _ c' _ hc' => .pure rfl hc'
    refine .peek hc ?_
    cases h with
    | number hk | string hk => simpa only [hk] using hliteral
    | true h | false h | nil h => simpa only [Token.is_iff.1 h] using hliteral
  | _, _, .this (t := t) h, n, c, rest, hn, hc, hw => by
    refine .peek hc ?_
    simp only [Token.is_iff.1 h]
    refine (Yields.advance hc).bind fun _ c' _ hc' => Yields.freshId.bind fun id c'' _ hc'' => ?_
    exact .pure rfl (hc''.trans hc')
  | _, _, .variable h, n, c, rest, hn, hc, hw => by
    refine (Yields.variable hc h).imp fun e he => ?_
    obtain ⟨id, rfl⟩ := he
    rfl
  | _, _, @Ebnf.Primary.grouping ts _ open' close hopen he hclose, n, c, rest, hn, hc, hw => by
    have hc : c.rest = open' :: (ts ++ (close :: rest)) := by simpa using hc
    refine .peek hc ?_
    simp only [Token.is_iff.1 hopen]
    refine (Yields.advance hc).bind fun _ c₁ _ hc₁ => ?_
    have hlt : c₁.left < n := by
      simp only [Cursor.left_eq, hc, hc₁, List.length_cons] at hn ⊢
      omega
    have hend : Meets enders (close :: rest) := meets_of_is hclose (by decide) _
    refine ((yields_assignment he hc₁ hend hw).within hlt).bind fun e' c₂ he' hc₂ => ?_
    refine (Yields.require hc₂ hclose).bind fun _ c₃ _ hc₃ => .pure ?_ hc₃
    rw [Same, Expr.bare, Expr.bare, he']

end

end Lox.Grammar
