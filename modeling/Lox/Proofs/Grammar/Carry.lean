/-
Rules do not see far. What a rule finds without a report it also finds where
other tokens stand behind those that it takes, and where the tokens stand on
other lines (`Carries`). It looks at one token more than it takes at most, so
that only matters where it comes to the last token: an expression would go on
there with an operator, a statement only with an `else`.
-/
import Lox.Proofs.Grammar.Quiet
import Lox.Proofs.Grammar.Yields
import Lox.Proofs.Tree.Like

namespace Lox.Grammar

/-- A cursor that a rule may leave behind: in addition, no token is ahead again. -/
structure Cursor.Onward (c c' : Cursor) : Prop extends Cursor.Reaches c c' where
  rest : c'.rest <:+ c.rest

namespace Cursor

variable {c c' c'' : Cursor}

theorem Onward.refl (c : Cursor) : c.Onward c := ⟨.refl c, List.suffix_rfl⟩

theorem Onward.trans (h : c.Onward c') (h' : c'.Onward c'') : c.Onward c'' :=
  ⟨h.toReaches.trans h'.toReaches, h'.rest.trans h.rest⟩

theorem Onward.rest_ne_nil (h : c.Onward c') (hc : c'.rest ≠ []) : c.rest ≠ [] := fun hnil => by
  have := h.rest
  rw [hnil] at this
  exact hc (List.suffix_nil.1 this)

theorem onward_advance (c : Cursor) : c.Onward c.advance := by
  refine ⟨c.reaches_advance, ?_⟩
  cases h : c.rest with
  | nil =>
    have hsame : c.advance = c := by
      unfold advance
      split
      · rfl
      next h' => simp [h] at h'
    have hrest : c.advance.rest = [] := (congrArg Cursor.rest hsame).trans h
    exact hrest ▸ List.suffix_rfl
  | cons t rest =>
    rw [(rest_advance h).1]
    exact List.suffix_cons ..

theorem onward_report (c : Cursor) (e : ParseError) : c.Onward (c.report e) :=
  ⟨c.reaches_report e, List.suffix_rfl⟩

/-- A report is still there in the end. -/
theorem Onward.noisy {e : ParseError}
    (h : Onward (c.report e) c') : c'.errors ≠ c.errors := fun hq => by
  have := congrArg Array.size ((c.onward_report e).quiet_left h.toReaches hq)
  simp [report] at this

/-- The second cursor has tokens ahead that are like those ahead of the first one, and then those in
`behind`. The next node gets the same number. -/
structure Over (L : Likeness) (behind : List Token) (c d : Cursor) : Prop where
  rest : ∃ us, d.rest = us ++ behind ∧ List.Forall₂ (Token.Like L) c.rest us
  nextId : d.nextId = c.nextId

variable {L : Likeness} {behind : List Token} {d : Cursor}

theorem Over.cons (h : c.Over L behind d) {t : Token} {rest : List Token}
    (hc : c.rest = t :: rest) :
    ∃ t' us, t.Like L t' ∧ List.Forall₂ (Token.Like L) rest us ∧
      d.rest = t' :: (us ++ behind) := by
  obtain ⟨us, hd, hlike⟩ := h.rest
  rw [hc] at hlike
  cases hlike with
  | cons ht hrest => exact ⟨_, _, ht, hrest, hd⟩

theorem Over.left (h : c.Over L behind d) : d.left = c.left + behind.length := by
  obtain ⟨us, hd, hlike⟩ := h.rest
  rw [d.left_eq, c.left_eq, hd, List.length_append, hlike.length_eq]

theorem Over.advance (h : c.Over L behind d) (hc : c.rest ≠ []) :
    c.advance.Over L behind d.advance ∧ d.advance.errors = d.errors := by
  obtain ⟨t, rest, hr⟩ := List.exists_cons_of_ne_nil hc
  obtain ⟨t', us, -, hrest, hd⟩ := h.cons hr
  have htook := Rule.took_advance hr
  have htook' := Rule.took_advance hd
  refine ⟨⟨⟨us, (rest_advance hd).1, ?_⟩, ?_⟩, (rest_advance hd).2⟩
  · rwa [(rest_advance hr).1]
  · rw [htook'.2, h.nextId, htook.2]

end Cursor

/-- Whether a token is one of some symbols does not depend on its line. -/
theorem any_is_like {L : Likeness} {t t' : Token} (h : t.Like L t') (symbols : List Symbol) :
    symbols.any t'.is = symbols.any t.is :=
  congrArg symbols.any (funext h.is)

theorem Stops.like {L : Likeness} {symbols : List Symbol} {ts us : List Token}
    (h : Stops symbols ts) (hus : List.Forall₂ (Token.Like L) ts us) : Stops symbols us := by
  cases hus with
  | nil => exact h
  | cons ht _ => exact stops_cons ((any_is_like ht symbols).trans (h _ _ rfl)) _

namespace Rule

variable {α β : Type} {L : Likeness} {behind : List Token}

/-- What the first rule finds without a report the second one finds over the same tokens, if there
is a token left or `E` holds of the tokens behind. With `takes` set, the first rule finds nothing
without a token. -/
structure Carries (L : Likeness) (behind : List Token) (E : Prop) (takes : Bool) (R : α → α → Prop)
    (rule rule' : Rule α) : Prop where
  onward : ∀ c : Cursor, c.Onward (cursorOf (rule c))
  takes : takes = true → ∀ {c a c'}, rule c = .ok a c' → c.rest ≠ []
  carry : ∀ {c d a c'}, c.Over L behind d → rule c = .ok a c' → c'.errors = c.errors →
    c'.rest ≠ [] ∨ E → ∃ a' d', rule' d = .ok a' d' ∧ d'.errors = d.errors ∧
      c'.Over L behind d' ∧ R a a'

namespace Carries

variable {E E' : Prop} {k k' : Bool} {R : α → α → Prop} {S : β → β → Prop} {rule rule' : Rule α}

theorem pure {a a' : α} (h : R a a') :
    Carries L behind E false R (Pure.pure a) (Pure.pure a') :=
  ⟨fun c => .refl c, (fun h => by cases h), fun {c d _ _} hd hr _ _ => by
    cases hr
    exact ⟨a', d, rfl, rfl, hd, h⟩⟩

theorem onward_ok (h : Carries L behind E k R rule rule') {c c' : Cursor} {a : α}
    (hr : rule c = .ok a c') : c.Onward c' := by
  have := h.onward c
  rwa [hr] at this

theorem bind_eq_ok {first : Rule β} {next : β → Rule α} {c c'' : Cursor} {a : α}
    (h : (first >>= next) c = .ok a c'') :
    ∃ b c', first c = .ok b c' ∧ next b c' = .ok a c'' := by
  replace h : EStateM.bind first next c = .ok a c'' := h
  unfold EStateM.bind at h
  split at h
  next b c' hb => exact ⟨b, c', hb, h⟩
  next => cases h

theorem bind_of_ok {first : Rule β} {next : β → Rule α} {c c' : Cursor} {b : β}
    (h : first c = .ok b c') : (first >>= next) c = next b c' := by
  show EStateM.bind first next c = _
  rw [EStateM.bind, h]

/-- The second rule begins where the first one ended, and may take the token that shows the end of
what the first one found. -/
theorem bind [Std.Refl S] {first first' : Rule β} {next next' : β → Rule α}
    (h : Carries L behind E' k' S first first')
    (hn : ∀ b b', S b b' → Carries L behind E k R (next b) (next' b'))
    (hE : k = true ∨ (E → E')) :
    Carries L behind E (k' || k) R (first >>= next) (first' >>= next') := by
  have hnext b := hn b b (Std.Refl.refl b)
  constructor
  · intro c
    have hc := h.onward c
    show c.Onward (cursorOf (EStateM.bind first next c))
    unfold EStateM.bind
    split
    next b c' hb =>
      rw [hb] at hc
      exact hc.trans ((hnext b).onward c')
    next hb => rwa [hb] at hc
  · intro hk c a c'' hr
    obtain ⟨b, c', hb, hr⟩ := bind_eq_ok hr
    rcases Bool.or_eq_true_iff.1 hk with hk | hk
    · exact h.takes hk hb
    · exact (h.onward_ok hb).rest_ne_nil ((hnext b).takes hk hr)
  · intro c d a c'' hd hr hq hfree
    obtain ⟨b, c', hb, hr⟩ := bind_eq_ok hr
    have hc := h.onward_ok hb
    have hc' := (hnext b).onward_ok hr
    have hfree' : c'.rest ≠ [] ∨ E' :=
      hE.elim (fun hk => .inl ((hnext b).takes hk hr)) fun hE => hfree.imp hc'.rest_ne_nil hE
    obtain ⟨b', d', hb', herr, hd', hS⟩ :=
      h.carry hd hb (hc.quiet_left hc'.toReaches hq) hfree'
    obtain ⟨a', d'', hr', herr', hd'', hR⟩ :=
      (hn b b' hS).carry hd' hr (hc.quiet_right hc'.toReaches hq) hfree
    exact ⟨a', d'', (bind_of_ok hb').trans hr', herr'.trans herr, hd'', hR⟩

theorem forget (h : Carries L behind E k R rule rule') : Carries L behind E false R rule rule' :=
  ⟨h.onward, (fun h => by cases h), h.carry⟩

/-- Less holds of what is followed by a token. -/
theorem inside (h : Carries L behind E k R rule rule') : Carries L behind False k R rule rule' :=
  ⟨h.onward, h.takes, fun hd hr hq hfree => h.carry hd hr hq (hfree.imp_right False.elim)⟩

section

variable [Std.Refl S] {first first' : Rule β} {next next' : β → Rule α}

theorem seq (h : Carries L behind E k' S first first')
    (hn : ∀ b b', S b b' → Carries L behind E false R (next b) (next' b')) :
    Carries L behind E false R (first >>= next) (first' >>= next') :=
  (h.bind hn (.inr id)).forget

/-- A rule that begins with a token. -/
theorem took (h : Carries L behind E true S first first')
    (hn : ∀ b b', S b b' → Carries L behind E k R (next b) (next' b')) :
    Carries L behind E true R (first >>= next) (first' >>= next') :=
  h.bind hn (.inr id)

/-- A rule behind which there is a token. -/
theorem before (h : Carries L behind False k' S first first')
    (hn : ∀ b b', S b b' → Carries L behind E true R (next b) (next' b')) :
    Carries L behind E true R (first >>= next) (first' >>= next') := by
  rw [← Bool.or_true k']
  exact h.bind hn (.inl rfl)

end

theorem map [Std.Refl S] {first first' : Rule β} {f : β → α}
    (h : Carries L behind E k S first first') (hf : ∀ b b', S b b' → R (f b) (f b')) :
    Carries L behind E k R (f <$> first) (f <$> first') := by
  rw [← bind_pure_comp, ← bind_pure_comp, ← Bool.or_false k]
  exact h.bind (fun b b' hb => .pure (hf b b' hb)) (.inr id)

theorem ite {p p' : Prop} [Decidable p] [Decidable p'] {other other' : Rule α} (hp : p' ↔ p)
    (h : p → Carries L behind E k R rule rule') (h' : ¬ p → Carries L behind E k R other other') :
    Carries L behind E k R (if p then rule else other) (if p' then rule' else other') := by
  by_cases hc : p
  · rw [if_pos hc, if_pos (hp.2 hc)]
    exact h hc
  · rw [if_neg hc, if_neg fun hc' => hc (hp.1 hc')]
    exact h' hc

/-- A rule that fails finds nothing. -/
theorem fail (fault : ParseFault) : Carries L behind E k R (Rule.fail fault) rule' :=
  ⟨fun c => .refl c, fun _ _ _ _ hr => (by cases hr), fun _ hr _ _ => by cases hr⟩

/-- What is found after a report is of no interest. -/
theorem report (e : ParseError) {next : Unit → Rule α} {other : Rule α}
    (hn : Carries L behind E k R (next ()) other) :
    Carries L behind E k R (Rule.report e >>= next) rule' := by
  refine ⟨fun c => (c.onward_report e).trans (hn.onward _), fun hk c a c' hr => ?_,
    fun {c d a c'} _ hr hq _ => ?_⟩
  · have hr : next () (c.report e) = .ok a c' := hr
    exact (c.onward_report e).rest_ne_nil (hn.takes hk hr)
  · have hr : next () (c.report e) = .ok a c' := hr
    exact absurd hq (hn.onward_ok hr).noisy

/-- A limit that is only reported when it is passed has not been passed. -/
theorem limit {n : Nat} {fault : ParseFault} {next next' : Unit → Rule α}
    (hn : Carries L behind E k R (next ()) (next' ())) :
    Carries L behind E k R
      (if maxArity ≤ n then Rule.peek >>= fun t => Rule.report ⟨t, fault⟩ >>= next else next ())
      (if maxArity ≤ n then Rule.peek >>= fun t => Rule.report ⟨t, fault⟩ >>= next'
        else next' ()) := by
  refine .ite Iff.rfl (fun _ => ?_) fun _ => hn
  have hreport (t : Token) (rule' : Rule α) :
      Carries L behind E k R (Rule.report ⟨t, fault⟩ >>= next) rule' := report _ hn
  exact ⟨fun c => (hreport c.peek (next' ())).onward c,
    fun hk {c a c'} hr => (hreport c.peek (next' ())).takes hk hr,
    fun {c d a c'} hd hr hq hfree => (hreport c.peek _).carry hd hr hq hfree⟩

/-- A rule that looks at the next token, and takes it or finds out that there is none. -/
theorem peek {next next' : Token → Rule α}
    (hn : ∀ t t', t.Like L t' → Carries L behind False k R (next t) (next' t')) :
    Carries L behind False k R (Rule.peek >>= next) (Rule.peek >>= next') := by
  refine ⟨fun c => (hn _ _ (Token.like_refl c.peek)).onward c,
    fun hk {c a c'} hr => (hn _ _ (Token.like_refl c.peek)).takes hk hr,
    fun {c d a c'} hd hr hq hfree => ?_⟩
  have hr : next c.peek c = .ok a c' := hr
  have hc := ((hn _ _ (Token.like_refl c.peek)).onward_ok hr).rest_ne_nil (hfree.resolve_right id)
  obtain ⟨t, rest, hrest⟩ := List.exists_cons_of_ne_nil hc
  obtain ⟨t', us, ht, -, hd'⟩ := hd.cons hrest
  have hpeek : c.peek = t := by rw [Cursor.peek, hrest]; rfl
  have hpeek' : d.peek = t' := by rw [Cursor.peek, hd']; rfl
  rw [hpeek] at hr
  obtain ⟨a', d', hr', h⟩ := (hn t t' ht).carry hd hr hq hfree
  exact ⟨a', d', by rw [← hpeek'] at hr'; exact hr', h⟩

/-- A rule that only asks something of the next token and goes on when there is one. -/
theorem look (ask : Cursor → β) {next next' : β → Rule α}
    (hask : ∀ {c d : Cursor}, c.Over L behind d → c.rest ≠ [] → ask d = ask c)
    (hn : ∀ b, Carries L behind False k R (next b) (next' b)) :
    Carries L behind False k R ((fun c => .ok (ask c) c) >>= next)
      ((fun c => .ok (ask c) c) >>= next') := by
  refine ⟨fun c => (hn (ask c)).onward c, fun hk {c a c'} hr => (hn (ask c)).takes hk hr,
    fun {c d a c'} hd hr hq hfree => ?_⟩
  have hr : next (ask c) c = .ok a c' := hr
  have hc := ((hn (ask c)).onward_ok hr).rest_ne_nil (hfree.resolve_right id)
  obtain ⟨a', d', hr', h⟩ := (hn (ask c)).carry hd hr hq hfree
  exact ⟨a', d', by rw [← hask hd hc] at hr'; exact hr', h⟩

theorem sees {s : Symbol} {next next' : Bool → Rule α}
    (hn : ∀ b, Carries L behind False k R (next b) (next' b)) :
    Carries L behind False k R (Rule.sees s >>= next) (Rule.sees s >>= next') := by
  refine look (fun c => c.sees s) (fun {c d} hd hc => ?_) hn
  obtain ⟨t, rest, hrest⟩ := List.exists_cons_of_ne_nil hc
  obtain ⟨t', us, ht, -, hd'⟩ := hd.cons hrest
  rw [Cursor.sees, Cursor.sees, hrest, hd']
  exact ht.is s

theorem atEnd {next next' : Bool → Rule α}
    (hn : ∀ b, Carries L behind False k R (next b) (next' b)) :
    Carries L behind False k R (Rule.atEnd >>= next) (Rule.atEnd >>= next') := by
  refine look (fun c => c.rest.isEmpty) (fun {c d} hd hc => ?_) hn
  obtain ⟨t, rest, hrest⟩ := List.exists_cons_of_ne_nil hc
  obtain ⟨t', us, -, -, hd'⟩ := hd.cons hrest
  rw [hrest, hd']
  rfl

theorem advance : Carries L behind False false Eq (modify Cursor.advance : Rule Unit)
    (modify Cursor.advance) := by
  refine ⟨Cursor.onward_advance, (fun h => by cases h), fun {c d _ _} hd hr _ hfree => ?_⟩
  cases hr
  have hc := c.onward_advance.rest_ne_nil (hfree.resolve_right id)
  obtain ⟨hd', herr⟩ := hd.advance hc
  exact ⟨(), d.advance, rfl, herr, hd', rfl⟩

theorem stops_or_meets (symbols : List Symbol) (rest : List Token) :
    Stops symbols rest ∨ Meets symbols rest := by
  cases rest with
  | nil => exact .inl fun _ _ h => by cases h
  | cons t rest =>
    by_cases ht : symbols.any t.is = true
    · exact .inr ⟨t, rest, rfl, ht⟩
    · exact .inl (stops_cons (Bool.eq_false_iff.2 ht) rest)

theorem accept_none {symbols : List Symbol} {c : Cursor} (h : Stops symbols c.rest) :
    Rule.accept? symbols c = .ok none c := by
  unfold Rule.accept?
  split
  next t rest hc => rw [if_neg (by rw [h t rest hc]; exact Bool.false_ne_true)]
  next => rfl

theorem accept_some {symbols : List Symbol} {c : Cursor} {t : Token} {rest : List Token}
    (h : c.rest = t :: rest) (ht : symbols.any t.is = true) :
    Rule.accept? symbols c = .ok (some t) c.advance := by
  unfold Rule.accept?
  rw [h]
  exact if_pos ht

/-- What the tokens behind begin with only counts where no token was left to be looked at. -/
theorem accept {symbols : List Symbol} {next next' : Option Token → Rule α}
    (hsome : ∀ t t', t.Like L t' → Carries L behind E false R (next (some t)) (next' (some t')))
    (hnone : Carries L behind E k R (next none) (next' none))
    (hE : k = true ∨ (E → Stops symbols behind)) :
    Carries L behind E k R (Rule.accept? symbols >>= next) (Rule.accept? symbols >>= next') := by
  have hthen t := hsome t t t.like_refl
  constructor
  · intro c
    rcases stops_or_meets symbols c.rest with hstops | ⟨t, rest, hrest, ht⟩
    · rw [bind_of_ok (accept_none hstops)]
      exact hnone.onward c
    · rw [bind_of_ok (accept_some hrest ht)]
      exact c.onward_advance.trans ((hthen t).onward c.advance)
  · intro hk c a c' hr
    rcases stops_or_meets symbols c.rest with hstops | ⟨t, rest, hrest, -⟩
    · rw [bind_of_ok (accept_none hstops)] at hr
      exact hnone.takes hk hr
    · rw [hrest]
      exact List.cons_ne_nil _ _
  · intro c d a c' hd hr hq hfree
    rcases stops_or_meets symbols c.rest with hstops | ⟨t, rest, hrest, ht⟩
    · rw [bind_of_ok (accept_none hstops)] at hr
      have hstops' : Stops symbols d.rest := by
        cases hrest : c.rest with
        | nil =>
          have hempty : c'.rest = [] :=
            List.suffix_nil.1 (hrest ▸ (hnone.onward_ok hr).rest)
          obtain ⟨us, hus, hlike⟩ := hd.rest
          rw [hrest] at hlike
          cases hlike
          rw [hus]
          refine hE.elim (fun hk => absurd hrest (hnone.takes hk hr)) fun hE => ?_
          exact hE (hfree.resolve_left (not_not_intro hempty))
        | cons t rest =>
          obtain ⟨t', us, hlike, -, hrest'⟩ := hd.cons hrest
          rw [hrest']
          exact stops_cons ((any_is_like hlike symbols).trans (hstops t rest hrest)) _
      obtain ⟨a', d', hr', h⟩ := hnone.carry hd hr hq hfree
      exact ⟨a', d', (bind_of_ok (accept_none hstops')).trans hr', h⟩
    · rw [bind_of_ok (accept_some hrest ht)] at hr
      obtain ⟨t', us, hlike, -, hrest'⟩ := hd.cons hrest
      obtain ⟨hover, herr⟩ := hd.advance (by rw [hrest]; exact List.cons_ne_nil _ _)
      have ht' : symbols.any t'.is = true := (any_is_like hlike symbols).trans ht
      obtain ⟨a', d', hr', herr', h⟩ := (hsome t t' hlike).carry hover hr
        (hq.trans (Cursor.rest_advance hrest).2.symm) hfree
      exact ⟨a', d', (bind_of_ok (accept_some hrest' ht')).trans hr', herr'.trans herr, h⟩

theorem requireName (of : Named) : Carries L behind E true (Token.Like L) (Rule.requireName of)
    (Rule.requireName of) := by
  have found {c c' : Cursor} {t : Token} (hr : Rule.requireName of c = .ok t c') :
      c.rest = t :: c'.rest ∧ t.isIdentifier = true ∧ c' = c.advance := by
    unfold Rule.requireName at hr
    split at hr
    next u rest h =>
      split at hr
      next hu =>
        cases hr
        exact ⟨by rw [h, (Cursor.rest_advance h).1], hu, rfl⟩
      next => cases hr
    next => cases hr
  refine ⟨fun c => ?_, fun _ {c t c'} hr => ?_, fun {c d t c'} hd hr hq _ => ?_⟩
  · unfold Rule.requireName
    split
    · split
      · exact c.onward_advance
      · exact .refl c
    · exact .refl c
  · rw [(found hr).1]
    exact List.cons_ne_nil _ _
  · obtain ⟨hrest, ht, rfl⟩ := found hr
    obtain ⟨t', us, hlike, -, hrest'⟩ := hd.cons hrest
    obtain ⟨hover, herr⟩ := hd.advance (by rw [hrest]; exact List.cons_ne_nil _ _)
    refine ⟨t', d.advance, ?_, herr, hover, hlike⟩
    unfold Rule.requireName
    rw [hrest']
    exact if_pos (hlike.isIdentifier.trans ht)

theorem require (s : Symbol) (place : Place) : Carries L behind E true (Token.Like L)
    (Rule.require s place) (Rule.require s place) :=
  .accept (fun _ _ ht => .pure ht) (.fail _) (.inl rfl)

theorem freshId : Carries L behind E false Eq Rule.freshId Rule.freshId :=
  ⟨fun _ => ⟨⟨rfl, Nat.le_succ _, List.prefix_rfl, id⟩, List.suffix_rfl⟩, (fun h => by cases h),
    fun {c d _ _} hd hr _ _ => by
      cases hr
      exact ⟨d.nextId, { d with nextId := d.nextId + 1 }, rfl, rfl,
        ⟨hd.rest, congrArg (· + 1) hd.nextId⟩, hd.nextId.symm⟩⟩

/-- A failure that is reported has been noticed. -/
theorem recover {handler handler' : ParseError → Rule α} (h : Carries L behind E k R rule rule')
    (hh : ∀ e c, c.Onward (cursorOf (handler e c)) ∧ (cursorOf (handler e c)).errors ≠ c.errors) :
    Carries L behind E false R (Rule.recover rule handler) (Rule.recover rule' handler') := by
  refine ⟨fun c => ?_, (fun h => by cases h), fun {c d a c'} hd hr hq hfree => ?_⟩
  · have hc := h.onward c
    unfold Rule.recover
    split
    next hok => rwa [hok] at hc
    next e c' herror =>
      rw [herror] at hc
      exact hc.trans (hh e c').1
  · have hc := h.onward c
    unfold Rule.recover at hr
    split at hr
    next hok =>
      cases hr
      obtain ⟨a', d', hr', hrest⟩ := h.carry hd hok hq hfree
      exact ⟨a', d', by rw [Rule.recover, hr'], hrest⟩
    next e c₁ herror =>
      rw [herror] at hc
      obtain ⟨honward, hnoisy⟩ := hh e c₁
      rw [hr] at honward hnoisy
      exact absurd (hc.quiet_right honward.toReaches hq) hnoisy

/-! ## Rules that use themselves -/

variable {body body' : (β → Rule α) → β → Rule α}

theorem below_fix (h : ∀ again again',
      (∀ b b', S b b' → Carries L behind E k R (again b) (again' b')) →
      ∀ b b', S b b' → Carries L behind E k R (body again b) (body' again' b')) (n : Nat) :
    ∀ b b', S b b' → Carries L behind E k R (below n (Rule.fix body) b)
      (below (n + behind.length) (Rule.fix body') b') := by
  induction n using Nat.strongRecOn with
  | ind n ih =>
    intro b b' hb
    refine ⟨fun c => ?_, fun hk {c a c'} hr => ?_, fun {c d a c'} hd hr hq hfree => ?_⟩
    · unfold below
      split
      next hc =>
        rw [fix_eq]
        exact (h _ _ (ih c.left hc) b b' hb).onward c
      next => exact .refl c
    · unfold below at hr
      split at hr
      next hc =>
        rw [fix_eq] at hr
        exact (h _ _ (ih c.left hc) b b' hb).takes hk hr
      next => cases hr
    · unfold below at hr
      split at hr
      next hc =>
        rw [fix_eq] at hr
        have hleft := hd.left
        obtain ⟨a', d', hr', hrest⟩ := (h _ _ (ih c.left hc) b b' hb).carry hd hr hq hfree
        refine ⟨a', d', ?_, hrest⟩
        have hlt : d.left < n + behind.length := by omega
        show (if d.left < n + behind.length then Rule.fix body' b' d else stuck d) = _
        rw [if_pos hlt, fix_eq, hleft]
        exact hr'
      next => cases hr

/-- A rule is carried over if its body is, whenever the uses of itself in it are. -/
theorem fix (h : ∀ again again',
      (∀ b b', S b b' → Carries L behind E k R (again b) (again' b')) →
      ∀ b b', S b b' → Carries L behind E k R (body again b) (body' again' b'))
    {b b' : β} (hb : S b b') : Carries L behind E k R (Rule.fix body b) (Rule.fix body' b') := by
  have hbody (c : Cursor) := h _ _ (below_fix h c.left) b b' hb
  refine ⟨fun c => ?_, fun hk {c a c'} hr => ?_, fun {c d a c'} hd hr hq hfree => ?_⟩
  · rw [fix_eq]
    exact (hbody c).onward c
  · rw [fix_eq] at hr
    exact (hbody c).takes hk hr
  · rw [fix_eq] at hr
    obtain ⟨a', d', hr', hrest⟩ := (hbody c).carry hd hr hq hfree
    refine ⟨a', d', ?_, hrest⟩
    rw [fix_eq, hd.left]
    exact hr'

end Carries

end Rule

end Lox.Grammar
