/-
What a rule finds at a given cursor. `Yields` says that a rule finds something,
without a report, and where it stops; rules one behind the other yield what each
yields where the one before it stopped (`Yields.bind`).

Tokens have one kind, so a token that is one of some symbols is none of others,
and a rule that looks for these leaves it alone (`Stops`).
-/
import Lox.Grammar.Program

namespace Lox

/-- A token that is one of some symbols is none of others. -/
theorem Token.any_is_eq_false {t : Token} {symbols others : List Symbol}
    (h : symbols.any t.is = true) (hd : ∀ s ∈ symbols, s ∉ others) : others.any t.is = false := by
  rw [List.any_eq_true] at h
  obtain ⟨s, hs, his⟩ := h
  rw [Token.is_iff] at his
  rw [List.any_eq_false]
  intro s' hs' his'
  rw [Token.is_iff, his, TokenKind.symbol.injEq] at his'
  exact hd s hs (his' ▸ hs')

theorem Token.any_is_of_is {t : Token} {s : Symbol} {symbols : List Symbol} (h : t.is s = true)
    (hs : s ∈ symbols) : symbols.any t.is = true :=
  List.any_eq_true.2 ⟨s, hs, h⟩

namespace Grammar

/-- The next token is none of these symbols. -/
def Stops (symbols : List Symbol) (rest : List Token) : Prop :=
  ∀ t us, rest = t :: us → symbols.any t.is = false

/-- The next token is one of these symbols. -/
def Meets (symbols : List Symbol) (rest : List Token) : Prop :=
  ∃ t us, rest = t :: us ∧ symbols.any t.is = true

theorem Meets.stops {symbols others : List Symbol} {rest : List Token} (h : Meets symbols rest)
    (hd : ∀ s ∈ symbols, s ∉ others) : Stops others rest := by
  obtain ⟨t, us, rfl, ht⟩ := h
  intro t' us' he
  cases he
  exact Token.any_is_eq_false ht hd

theorem meets_of_is {t : Token} {s : Symbol} {symbols : List Symbol} (h : t.is s = true)
    (hs : s ∈ symbols) (rest : List Token) : Meets symbols (t :: rest) :=
  ⟨t, rest, rfl, Token.any_is_of_is h hs⟩

theorem Stops.append_left {symbols others : List Symbol} {rest : List Token}
    (h : Stops (symbols ++ others) rest) : Stops symbols rest := fun t us ht => by
  have := h t us ht
  rw [List.any_append, Bool.or_eq_false_iff] at this
  exact this.1

theorem Stops.append_right {symbols others : List Symbol} {rest : List Token}
    (h : Stops (symbols ++ others) rest) : Stops others rest := fun t us ht => by
  have := h t us ht
  rw [List.any_append, Bool.or_eq_false_iff] at this
  exact this.2

theorem stops_cons {symbols : List Symbol} {t : Token} (h : symbols.any t.is = false)
    (rest : List Token) : Stops symbols (t :: rest) := fun t' us' he => by
  cases he
  exact h

theorem stops_of_is {symbols : List Symbol} {t : Token} {s : Symbol} (h : t.is s = true)
    (hs : s ∉ symbols) (rest : List Token) : Stops symbols (t :: rest) :=
  stops_cons (@Token.any_is_eq_false _ [s] _ (by simpa using h) (by simpa using hs)) rest

theorem Cursor.rest_advance {c : Cursor} {t : Token} {rest : List Token} (h : c.rest = t :: rest) :
    c.advance.rest = rest ∧ c.advance.errors = c.errors := by
  unfold Cursor.advance
  split
  next hn =>
    rw [hn] at h
    cases h
  next hc =>
    rw [h] at hc
    cases hc
    exact ⟨rfl, rfl⟩

namespace Rule

variable {α β : Type}

/-- The rule finds something of this sort, reports nothing and stops here. -/
def Yields (rule : Rule α) (c : Cursor) (P : α → Prop) (rest : List Token) : Prop :=
  ∃ a c', rule c = .ok a c' ∧ c'.rest = rest ∧ c'.errors = c.errors ∧ P a

namespace Yields

variable {c : Cursor} {P : α → Prop} {rest : List Token}

theorem imp {rule : Rule α} {Q : α → Prop} (h : rule.Yields c Q rest) (hp : ∀ a, Q a → P a) :
    rule.Yields c P rest := by
  obtain ⟨a, c', hr, hrest, herrors, ha⟩ := h
  exact ⟨a, c', hr, hrest, herrors, hp a ha⟩

theorem pure {a : α} (hp : P a) (hrest : c.rest = rest) : Yields (Pure.pure a) c P rest :=
  ⟨a, c, rfl, hrest, rfl, hp⟩

theorem bind {rule : Rule β} {next : β → Rule α} {Q : β → Prop} {mid : List Token}
    (h : rule.Yields c Q mid)
    (hn : ∀ b c', Q b → c'.rest = mid → (next b).Yields c' P rest) :
    (rule >>= next).Yields c P rest := by
  obtain ⟨b, c', hr, hmid, herrors, hb⟩ := h
  obtain ⟨a, c'', hr', hrest, herrors', ha⟩ := hn b c' hb hmid
  refine ⟨a, c'', ?_, hrest, herrors'.trans herrors, ha⟩
  show EStateM.bind rule next c = _
  rw [EStateM.bind, hr]
  exact hr'

theorem map {rule : Rule β} {f : β → α} (h : rule.Yields c (fun b => P (f b)) rest) :
    (f <$> rule).Yields c P rest := by
  rw [← bind_pure_comp]
  exact h.bind fun b c' hb hrest => .pure hb hrest

/-- A rule that only looks. -/
theorem look {rule : Rule β} {next : β → Rule α} {b : β} (h : rule c = .ok b c)
    (hn : (next b).Yields c P rest) : (rule >>= next).Yields c P rest := by
  obtain ⟨a, c', hr, hrest⟩ := hn
  refine ⟨a, c', ?_, hrest⟩
  show EStateM.bind rule next c = _
  rw [EStateM.bind, h]
  exact hr

theorem peek {next : Token → Rule α} {t : Token} {us : List Token} (h : c.rest = t :: us)
    (hn : (next t).Yields c P rest) : (Rule.peek >>= next).Yields c P rest := by
  have : c.peek = t := by rw [Cursor.peek, h]; rfl
  exact look (b := t) (this ▸ rfl) hn

theorem sees_true {next : Bool → Rule α} {s : Symbol} {t : Token} {us : List Token}
    (h : c.rest = t :: us) (ht : t.is s = true) (hn : (next true).Yields c P rest) :
    (Rule.sees s >>= next).Yields c P rest := by
  have : c.sees s = true := by rw [Cursor.sees, h]; exact ht
  exact look (b := true) (this ▸ rfl) hn

theorem sees_false {next : Bool → Rule α} {s : Symbol} (h : Stops [s] c.rest)
    (hn : (next false).Yields c P rest) : (Rule.sees s >>= next).Yields c P rest := by
  have : c.sees s = false := by
    rw [Cursor.sees]
    split
    next t us ht => simpa using h t us ht
    next => rfl
  exact look (b := false) (this ▸ rfl) hn

theorem atEnd {next : Bool → Rule α} (hn : (next c.rest.isEmpty).Yields c P rest) :
    (Rule.atEnd >>= next).Yields c P rest :=
  look (b := c.rest.isEmpty) rfl hn

theorem accept_none {next : Option Token → Rule α} {symbols : List Symbol}
    (h : Stops symbols c.rest) (hn : (next none).Yields c P rest) :
    (Rule.accept? symbols >>= next).Yields c P rest := by
  refine look (b := none) ?_ hn
  unfold Rule.accept?
  split
  next t us ht => rw [if_neg (by rw [h t us ht]; exact Bool.false_ne_true)]
  next => rfl

theorem advance {t : Token} (h : c.rest = t :: rest) :
    Yields (modify Cursor.advance) c (fun _ => True) rest :=
  ⟨(), c.advance, rfl, (Cursor.rest_advance h).1, (Cursor.rest_advance h).2, trivial⟩

theorem accept {symbols : List Symbol} {t : Token} (h : c.rest = t :: rest)
    (ht : symbols.any t.is = true) : (Rule.accept? symbols).Yields c (· = some t) rest := by
  refine ⟨some t, c.advance, ?_, (Cursor.rest_advance h).1, (Cursor.rest_advance h).2, rfl⟩
  unfold Rule.accept?
  rw [h]
  exact if_pos ht

theorem require {s : Symbol} {place : Place} {t : Token} (h : c.rest = t :: rest)
    (ht : t.is s = true) : (Rule.require s place).Yields c (· = t) rest :=
  (accept h (by simpa using ht)).bind fun t? c' ht? hrest => by
    subst ht?
    exact .pure rfl hrest

theorem requireName {of : Named} {t : Token} (h : c.rest = t :: rest)
    (ht : t.isIdentifier = true) : (Rule.requireName of).Yields c (· = t) rest := by
  refine ⟨t, c.advance, ?_, (Cursor.rest_advance h).1, (Cursor.rest_advance h).2, rfl⟩
  unfold Rule.requireName
  rw [h]
  exact if_pos ht

theorem freshId : Rule.freshId.Yields c (fun _ => True) c.rest :=
  ⟨c.nextId, { c with nextId := c.nextId + 1 }, rfl, rfl, rfl, trivial⟩

/-- A use of a rule in itself is a use of the rule where fewer tokens are ahead. -/
theorem below {n : Nat} {rule : β → Rule α} {b : β} (hc : c.left < n)
    (h : (rule b).Yields c P rest) : (Rule.below n rule b).Yields c P rest := by
  obtain ⟨a, c', hr, hrest⟩ := h
  refine ⟨a, c', ?_, hrest⟩
  rw [Rule.below, if_pos hc]
  exact hr

theorem fix {body : (β → Rule α) → β → Rule α} {b : β}
    (h : (body (Rule.below c.left (Rule.fix body)) b).Yields c P rest) :
    Yields (Rule.fix body b) c P rest := by
  obtain ⟨a, c', hr, hrest⟩ := h
  exact ⟨a, c', by rw [fix_eq]; exact hr, hrest⟩

end Yields

end Rule

end Grammar

end Lox
