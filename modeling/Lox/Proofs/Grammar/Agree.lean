/-
Rules that do not come back to where they were. Two rules agree below a number
of tokens if they do the same with fewer tokens ahead (`Agrees`). What a rule
says in terms of itself agrees with what it says in terms of another rule one
token further than the two agree: then its uses of itself all have fewer tokens
ahead than it has, and come to an end (`Agrees.ends`).
-/
import Lox.Proofs.Grammar.Carry
import Mathlib.Logic.Function.Iterate

namespace Lox.Grammar

/-- Fewer than `n` tokens are ahead, and then an end. -/
structure Cursor.Under (n : Nat) (c : Cursor) : Prop where
  left : c.left < n
  eof : c.eof.isEof = true

namespace Cursor

variable {n m : Nat} {c d : Cursor}

theorem Onward.left_le (h : c.Onward d) : d.left ≤ c.left := by
  rw [d.left_eq, c.left_eq]
  exact h.rest.length_le

theorem Under.mono (h : c.Under m) (hm : m ≤ n) : c.Under n := ⟨Nat.lt_of_lt_of_le h.left hm, h.eof⟩

theorem Under.onward (h : c.Under n) (hd : c.Onward d) : d.Under n :=
  ⟨Nat.lt_of_le_of_lt hd.left_le h.left, hd.eof ▸ h.eof⟩

/-- Behind a token there are fewer tokens ahead. -/
theorem Under.took (h : c.Under n) (hd : c.Onward d) (hlt : d.left < c.left) : d.Under (n - 1) := by
  refine ⟨?_, (h.onward hd).eof⟩
  have := h.left
  omega

theorem left_advance {t : Token} {rest : List Token} (h : c.rest = t :: rest) :
    c.advance.left < c.left := by
  rw [c.advance.left_eq, c.left_eq, (rest_advance h).1, h]
  exact Nat.lt_succ_self _

theorem left_eq_zero : c.left = 0 ↔ c.rest = [] := by rw [c.left_eq, List.length_eq_zero_iff]

end Cursor

/-- When a rule finds nothing without taking a token. -/
inductive Taking
  | never
  /-- Where a token is ahead. -/
  | ahead
  | always

/-- Whether a rule finds nothing here without taking a token. -/
def Taking.At (c : Cursor) : Taking → Prop
  | never => False
  | ahead => c.rest ≠ []
  | always => True

namespace Rule

variable {α β : Type}

/-- From this cursor on the second rule does what the first one does, which never goes back and
takes a token if it finds something where it has to. -/
structure AgreesAt (k : Taking) (c : Cursor) (rule rule' : Rule α) : Prop where
  same : rule' c = rule c
  onward : c.Onward (cursorOf (rule c))
  takes : k.At c → ∀ {a d}, rule c = .ok a d → d.left < c.left

/-- Both rules do the same with fewer than `n` tokens ahead. -/
structure Agrees (n : Nat) (k : Taking) (rule rule' : Rule α) : Prop where
  under : ∀ {c : Cursor}, c.Under n → AgreesAt k c rule rule'

namespace AgreesAt

variable {j k : Taking} {c : Cursor} {rule rule' : Rule β} {next next' : β → Rule α}

theorem onward_ok (h : AgreesAt k c rule rule') {b : β} {d : Cursor} (hr : rule c = .ok b d) :
    c.Onward d := by
  have := h.onward
  rwa [hr] at this

/-- Both rules go on where the first part stops. -/
theorem bind (h : AgreesAt j c rule rule')
    (hn : ∀ {b d}, rule c = .ok b d → c.Onward d → AgreesAt .never d (next b) (next' b)) :
    AgreesAt j c (rule >>= next) (rule' >>= next') := by
  have hc := h.onward
  cases hr : rule c with
  | ok b d =>
    rw [hr] at hc
    have hd := hn hr hc
    have hr' : rule' c = .ok b d := h.same.trans hr
    refine ⟨?_, ?_, fun hk a e he => ?_⟩
    · rw [Carries.bind_of_ok hr, Carries.bind_of_ok hr', hd.same]
    · rw [Carries.bind_of_ok hr]
      exact hc.trans hd.onward
    · rw [Carries.bind_of_ok hr] at he
      exact Nat.lt_of_le_of_lt (hd.onward_ok he).left_le (h.takes hk hr)
  | error e d =>
    rw [hr] at hc
    have failed {first : Rule β} {rest : β → Rule α} (hf : first c = .error e d) :
        (first >>= rest) c = .error e d := by
      show EStateM.bind first rest c = _
      rw [EStateM.bind, hf]
    refine ⟨?_, ?_, fun hk a d' hok => ?_⟩
    · rw [failed hr, failed (h.same.trans hr)]
    · rwa [failed hr]
    · rw [failed hr] at hok
      cases hok

theorem forget (h : AgreesAt k c rule rule') : AgreesAt .never c rule rule' :=
  ⟨h.same, h.onward, False.elim⟩

/-- Only what the rules do from this cursor on counts. -/
theorem congr {other other' : Rule β} (h : AgreesAt k c rule rule') (hr : other c = rule c)
    (hr' : other' c = rule' c) : AgreesAt k c other other' :=
  ⟨hr'.trans (h.same.trans hr.symm), hr.symm ▸ h.onward, fun hk _ _ hok => h.takes hk (hr ▸ hok)⟩

end AgreesAt

namespace Agrees

variable {n m : Nat} {j k : Taking} {rule rule' rule'' : Rule α}

theorem mono (h : Agrees n k rule rule') (hm : m ≤ n) : Agrees m k rule rule' :=
  ⟨fun hc => h.under (hc.mono hm)⟩

theorem forget (h : Agrees n k rule rule') : Agrees n .never rule rule' :=
  ⟨fun hc => (h.under hc).forget⟩

/-- What always takes a token takes one everywhere. -/
theorem weaken (h : Agrees n .always rule rule') : Agrees n k rule rule' :=
  ⟨fun hc => ⟨(h.under hc).same, (h.under hc).onward, fun _ => (h.under hc).takes trivial⟩⟩

theorem trans (h : Agrees n k rule rule') (h' : Agrees n j rule' rule'') :
    Agrees n k rule rule'' :=
  ⟨fun hc => ⟨(h'.under hc).same.trans (h.under hc).same, (h.under hc).onward, (h.under hc).takes⟩⟩

theorem pure (a : α) : Agrees n .never (Pure.pure a) (Pure.pure a) :=
  ⟨fun _ => ⟨rfl, .refl _, False.elim⟩⟩

theorem fail (fault : ParseFault) : Agrees n k (Rule.fail fault : Rule α) (Rule.fail fault) :=
  ⟨fun _ => ⟨rfl, .refl _, fun _ _ _ h => by cases h⟩⟩

section

variable {first first' : Rule β} {next next' : β → Rule α}

theorem seq (h : Agrees n k first first') (hn : ∀ b, Agrees n .never (next b) (next' b)) :
    Agrees n .never (first >>= next) (first' >>= next') :=
  ⟨fun hc => ((h.under hc).bind fun {b _} _ hd => (hn b).under (hc.onward hd)).forget⟩

/-- A rule that begins with a token. -/
theorem took (h : Agrees n .always first first')
    (hn : ∀ b, Agrees (n - 1) .never (next b) (next' b)) :
    Agrees n k (first >>= next) (first' >>= next') :=
  weaken ⟨fun hc => (h.under hc).bind fun {b _} hr hd =>
    (hn b).under (hc.took hd ((h.under hc).takes trivial hr))⟩

/-- A rule that begins with a token, where one is ahead. -/
theorem tookAhead (h : Agrees n .ahead first first')
    (hn : ∀ b, Agrees (n - 1) .never (next b) (next' b)) {c : Cursor} (hc : c.Under n)
    (hrest : c.rest ≠ []) : AgreesAt .never c (first >>= next) (first' >>= next') :=
  ((h.under hc).bind fun {b _} hr hd =>
    (hn b).under (hc.took hd ((h.under hc).takes hrest hr))).forget

theorem map {f : β → α} (h : Agrees n k first first') : Agrees n k (f <$> first) (f <$> first') := by
  rw [← bind_pure_comp, ← bind_pure_comp]
  exact ⟨fun hc => (h.under hc).bind fun _ hd => (pure _).under (hc.onward hd)⟩

end

theorem ite {p : Prop} [Decidable p] {other other' : Rule α} (h : Agrees n k rule rule')
    (h' : Agrees n k other other') :
    Agrees n k (if p then rule else other) (if p then rule' else other') := by
  split
  · exact h
  · exact h'

/-! ## What a rule looks at -/

/-- A rule that only asks something of the place where it is. -/
theorem look (ask : Cursor → β) {next next' : β → Rule α}
    (hn : ∀ b, Agrees n k (next b) (next' b)) :
    Agrees n k ((fun c => .ok (ask c) c) >>= next) ((fun c => .ok (ask c) c) >>= next') :=
  ⟨fun {c} hc => ((hn (ask c)).under hc).congr rfl rfl⟩

theorem sees {s : Symbol} {next next' : Bool → Rule α} (hn : ∀ b, Agrees n k (next b) (next' b)) :
    Agrees n k (Rule.sees s >>= next) (Rule.sees s >>= next') := look (·.sees s) hn

/-- A rule that asks whether this is the end may rely on a token where it is not. -/
theorem atEnd {next next' : Bool → Rule α} (hend : Agrees n .never (next true) (next' true))
    (hmore : ∀ {c : Cursor}, c.Under n → c.rest ≠ [] →
      AgreesAt .never c (next false) (next' false)) :
    Agrees n .never (Rule.atEnd >>= next) (Rule.atEnd >>= next') := by
  refine ⟨fun {c} hc => ?_⟩
  have hask : Rule.atEnd c = .ok c.rest.isEmpty c := rfl
  cases hrest : c.rest with
  | nil =>
    rw [hrest] at hask
    exact (hend.under hc).congr (Carries.bind_of_ok hask) (Carries.bind_of_ok hask)
  | cons t rest =>
    have hne : c.rest ≠ [] := hrest ▸ List.cons_ne_nil t rest
    rw [hrest] at hask
    exact (hmore hc hne).congr (Carries.bind_of_ok hask) (Carries.bind_of_ok hask)

theorem freshId {next next' : NodeId → Rule α} (hn : ∀ id, Agrees n k (next id) (next' id)) :
    Agrees n k (Rule.freshId >>= next) (Rule.freshId >>= next') := by
  refine ⟨fun {c} hc => ?_⟩
  have hd : c.Onward { c with nextId := c.nextId + 1 } :=
    ⟨⟨rfl, Nat.le_succ _, List.prefix_rfl, id⟩, List.suffix_rfl⟩
  have h := (hn c.nextId).under (hc.onward hd)
  refine ⟨h.same, hd.trans h.onward, fun hk => h.takes ?_⟩
  cases k with
  | never => exact hk
  | ahead => exact hk
  | always => trivial

/-- A report takes no token. -/
theorem report {e : ParseError} {next next' : Unit → Rule α}
    (hn : Agrees n k (next ()) (next' ())) :
    Agrees n k (Rule.report e >>= next) (Rule.report e >>= next') := by
  refine ⟨fun {c} hc => ?_⟩
  have h := hn.under (hc.onward (c.onward_report e))
  refine ⟨h.same, (c.onward_report e).trans h.onward, fun hk => h.takes ?_⟩
  cases k with
  | never => exact hk
  | ahead => exact hk
  | always => trivial

/-- A limit that is reported when it is passed. -/
theorem limit {size : Nat} {fault : ParseFault} {next next' : Unit → Rule α}
    (hn : Agrees n k (next ()) (next' ())) :
    Agrees n k
      (if maxArity ≤ size then Rule.peek >>= fun t => Rule.report ⟨t, fault⟩ >>= next else next ())
      (if maxArity ≤ size then Rule.peek >>= fun t => Rule.report ⟨t, fault⟩ >>= next'
        else next' ()) :=
  .ite (look Cursor.peek fun _ => report hn) hn

/-! ## What a rule takes -/

theorem accept {symbols : List Symbol} {next next' : Option Token → Rule α}
    (hsome : ∀ t, Agrees (n - 1) .never (next (some t)) (next' (some t)))
    (hnone : Agrees n k (next none) (next' none)) :
    Agrees n k (Rule.accept? symbols >>= next) (Rule.accept? symbols >>= next') := by
  refine ⟨fun {c} hc => ?_⟩
  rcases Carries.stops_or_meets symbols c.rest with hstops | ⟨t, rest, hrest, ht⟩
  · have haccept := Carries.accept_none hstops
    exact (hnone.under hc).congr (Carries.bind_of_ok haccept) (Carries.bind_of_ok haccept)
  · have hlt := Cursor.left_advance hrest
    have h := (hsome t).under (hc.took c.onward_advance hlt)
    have haccept := Carries.accept_some hrest ht
    refine ⟨?_, ?_, fun _ _ _ hr => ?_⟩ <;> rw [Carries.bind_of_ok haccept] at *
    · rw [Carries.bind_of_ok haccept, h.same]
    · exact c.onward_advance.trans h.onward
    · exact Nat.lt_of_le_of_lt (h.onward_ok hr).left_le hlt

theorem require (s : Symbol) (place : Place) :
    Agrees n .always (Rule.require s place) (Rule.require s place) :=
  accept (fun t => pure t) (fail _)

theorem requireName (of : Named) : Agrees n .always (Rule.requireName of) (Rule.requireName of) := by
  refine ⟨fun {c} _ => ?_⟩
  have hcases : (∃ f, Rule.requireName of c = Rule.fail f c) ∨
      ∃ t rest, c.rest = t :: rest ∧ Rule.requireName of c = .ok t c.advance := by
    unfold Rule.requireName
    split
    next t rest h =>
      split
      · exact .inr ⟨t, rest, h, rfl⟩
      · exact .inl ⟨_, rfl⟩
    next => exact .inl ⟨_, rfl⟩
  rcases hcases with ⟨f, hr⟩ | ⟨t, rest, hrest, hr⟩ <;> refine ⟨rfl, ?_, fun _ a d hok => ?_⟩ <;>
    rw [hr] at *
  · exact .refl c
  · cases hok
  · exact c.onward_advance
  · cases hok
    exact Cursor.left_advance hrest

/-- A rule that takes the next token if it is any but the end. -/
theorem token {next next' : Token → Rule α}
    (hend : ∀ t : Token, t.isEof = true → ∃ f, next t = Rule.fail f ∧ next' t = Rule.fail f)
    (hnext : ∀ t, (∃ f, next t = Rule.fail f ∧ next' t = Rule.fail f) ∨
      ∃ rest rest' : Unit → Rule α, next t = (modify Cursor.advance >>= rest) ∧
        next' t = (modify Cursor.advance >>= rest') ∧ Agrees (n - 1) .never (rest ()) (rest' ())) :
    Agrees n .always (Rule.peek >>= next) (Rule.peek >>= next') := by
  refine ⟨fun {c} hc => ?_⟩
  suffices h : AgreesAt .always c (next c.peek) (next' c.peek) from h.congr rfl rfl
  have failed (hf : ∃ f, next c.peek = Rule.fail f ∧ next' c.peek = Rule.fail f) :
      AgreesAt .always c (next c.peek) (next' c.peek) := by
    obtain ⟨f, hf, hf'⟩ := hf
    rw [hf, hf']
    exact (fail f).under hc
  cases hrest : c.rest with
  | nil => exact failed (hend _ (by rw [Cursor.peek, hrest]; exact hc.eof))
  | cons t tail =>
    rcases hnext c.peek with hf | ⟨rest, rest', hr, hr', h⟩
    · exact failed hf
    · have hlt := Cursor.left_advance hrest
      have h := h.under (hc.took c.onward_advance hlt)
      rw [hr, hr']
      exact ⟨h.same, c.onward_advance.trans h.onward, fun _ _ _ hok =>
        Nat.lt_of_le_of_lt (h.onward_ok hok).left_le hlt⟩

/-! ## Rules that use themselves -/

section

variable {body body' : (β → Rule α) → β → Rule α}

/-- Rules that use themselves agree if their bodies agree one token further than their uses of
themselves. -/
theorem fix (h : ∀ m < n, ∀ again again', (∀ b, Agrees m k (again b) (again' b)) →
      ∀ b, Agrees (m + 1) k (body again b) (body' again' b)) (b : β) :
    Agrees n k (Rule.fix body b) (Rule.fix body' b) := by
  have key : ∀ m ≤ n, ∀ b, Agrees m k (Rule.fix body b) (Rule.fix body' b) := by
    intro m
    induction m with
    | zero => exact fun _ _ => ⟨fun hc => absurd hc.left (Nat.not_lt_zero _)⟩
    | succ m ih =>
      intro hm b
      refine ⟨fun {c} hc => ?_⟩
      have hle : c.left ≤ m := Nat.le_of_lt_succ hc.left
      have hbelow (b : β) : Agrees c.left k (below c.left (Rule.fix body) b)
          (below c.left (Rule.fix body') b) :=
        ⟨fun {d} hd => ((ih (Nat.le_of_succ_le hm) b).under (hd.mono hle)).congr
          (if_pos hd.left) (if_pos hd.left)⟩
      have hbody := (h c.left (Nat.lt_of_lt_of_le hc.left hm) _ _ hbelow b).under
        ⟨Nat.lt_succ_self _, hc.eof⟩
      exact hbody.congr (fix_eq body b c) (fix_eq body' b c)
  exact key n (Nat.le_refl n) b

variable (h : ∀ m < n, ∀ again again', (∀ b, Agrees m k (again b) (again' b)) →
  ∀ b, Agrees (m + 1) k (body again b) (body again' b))

include h

/-- Such a rule is what it says in terms of itself, on whatever tokens it uses itself. -/
theorem fix_body (b : β) : Agrees n k (Rule.fix body b) (body (Rule.fix body) b) := by
  refine ⟨fun {c} hc => ?_⟩
  have hbelow (b : β) : Agrees c.left k (below c.left (Rule.fix body) b) (Rule.fix body b) :=
    ⟨fun {d} hd => ((fix h b).under (hd.mono (Nat.le_of_lt hc.left))).congr (if_pos hd.left) rfl⟩
  exact ((h c.left hc.left _ _ hbelow b).under ⟨Nat.lt_succ_self _, hc.eof⟩).congr
    (fix_eq body b c) rfl

/-- Uses of itself more than `m` levels deep need more than `m` tokens. -/
theorem fix_levels (deepest : β → Rule α) :
    ∀ m ≤ n, ∀ b, Agrees m k (Rule.fix body b) (body^[m] deepest b) := by
  intro m
  induction m with
  | zero => exact fun _ _ => ⟨fun hc => absurd hc.left (Nat.not_lt_zero _)⟩
  | succ m ih =>
    intro hm b
    rw [Function.iterate_succ_apply']
    exact ((fix_body h b).mono hm).trans (h m hm _ _ (ih (Nat.le_of_succ_le hm)) b)
end

end Agrees

end Rule

end Lox.Grammar
