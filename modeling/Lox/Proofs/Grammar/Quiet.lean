/-
What can be said of a rule that reports nothing. A rule never takes back a
report or a number, so a rule that ends with the errors it began with had none
on the way, and what holds of its parts without errors holds together
(`Sound.bind`). A rule that uses itself is sound if it is sound under the
assumption that its uses of itself are (`Sound.fix`).
-/
import Lox.Grammar.Program

namespace Lox.Grammar

/-- The flag of a cursor is set exactly if something was reported. -/
def Cursor.Flagged (c : Cursor) : Prop := c.failed = true ↔ c.errors ≠ #[]

/-- A cursor that a rule may leave behind: nothing reported is lost, no report is without its flag
and no number is used again. -/
structure Cursor.Reaches (c c' : Cursor) : Prop where
  eof : c'.eof = c.eof
  nextId : c.nextId ≤ c'.nextId
  errors : c.errors.toList <+: c'.errors.toList
  flagged : c.Flagged → c'.Flagged

namespace Cursor.Reaches

variable {c c' c'' : Cursor}

theorem refl (c : Cursor) : c.Reaches c := ⟨rfl, Nat.le_refl _, List.prefix_rfl, id⟩

theorem trans (h : c.Reaches c') (h' : c'.Reaches c'') : c.Reaches c'' :=
  ⟨h'.eof.trans h.eof, Nat.le_trans h.nextId h'.nextId, h.errors.trans h'.errors,
    h'.flagged ∘ h.flagged⟩

/-- When nothing was reported in the end, nothing was reported on the way. -/
theorem quiet_left (h : c.Reaches c') (h' : c'.Reaches c'') (hq : c''.errors = c.errors) :
    c'.errors = c.errors := by
  have hle := h'.errors.length_le
  rw [hq] at hle
  exact Array.toList_inj.1 (h.errors.eq_of_length_le hle).symm

theorem quiet_right (h : c.Reaches c') (h' : c'.Reaches c'') (hq : c''.errors = c.errors) :
    c''.errors = c'.errors := hq.trans (h.quiet_left h' hq).symm

end Cursor.Reaches

theorem Cursor.reaches_advance (c : Cursor) : c.Reaches c.advance := by
  unfold Cursor.advance
  split <;> exact ⟨rfl, Nat.le_refl _, List.prefix_rfl, id⟩

theorem Cursor.reaches_report (c : Cursor) (e : ParseError) : c.Reaches (c.report e) := by
  have herrors : c.errors.toList <+: (c.report e).errors.toList := by
    simp only [report, Array.toList_push]
    exact List.prefix_append _ _
  exact ⟨rfl, Nat.le_refl _, herrors, fun _ => by simp [Flagged, report]⟩

/-- Where a rule ended. -/
def cursorOf {α : Type} : EStateM.Result ParseError Cursor α → Cursor
  | .ok _ c => c
  | .error _ c => c

namespace Rule

variable {α β : Type}

/-- A rule takes nothing back, and what it finds without a report is as stated. -/
structure Sound (rule : Rule α) (Q : Cursor → α → Cursor → Prop) : Prop where
  reaches : ∀ c : Cursor, c.Reaches (cursorOf (rule c))
  quiet : ∀ {c a c'}, c.eof.isEof = true → rule c = .ok a c' → c'.errors = c.errors → Q c a c'

namespace Sound

variable {Q : Cursor → α → Cursor → Prop}

theorem weaken {rule : Rule α} {P : Cursor → α → Cursor → Prop} (h : Sound rule P)
    (hQ : ∀ c a c', P c a c' → Q c a c') : Sound rule Q :=
  ⟨h.reaches, fun he hr hq => hQ _ _ _ (h.quiet he hr hq)⟩

theorem pure {a : α} (h : ∀ c, Q c a c) : Sound (Pure.pure a) Q :=
  ⟨fun c => .refl c, fun _ hr _ => by cases hr; exact h _⟩

/-- The second rule begins where the first one ended, knowing what it found. -/
theorem bind {rule : Rule β} {next : β → Rule α} {P : Cursor → β → Cursor → Prop}
    (h : Sound rule P)
    (hn : ∀ b, Sound (next b) fun c' a c'' => ∀ c, P c b c' → Q c a c'') :
    Sound (rule >>= next) Q := by
  constructor
  · intro c
    have hc := h.reaches c
    show c.Reaches (cursorOf (EStateM.bind rule next c))
    unfold EStateM.bind
    split
    next b c' hr =>
      rw [hr] at hc
      exact hc.trans ((hn b).reaches c')
    next e c' hr => rwa [hr] at hc
  · intro c a c'' he hr hq
    replace hr : EStateM.bind rule next c = .ok a c'' := hr
    unfold EStateM.bind at hr
    split at hr
    next b c' hb =>
      have hc : c.Reaches c' := by
        have := h.reaches c
        rwa [hb] at this
      have hc' : c'.Reaches c'' := by
        have := (hn b).reaches c'
        rwa [hr] at this
      exact (hn b).quiet (hc.eof ▸ he) hr (hc.quiet_right hc' hq) c
        (h.quiet he hb (hc.quiet_left hc' hq))
    next => cases hr

theorem map {rule : Rule β} {f : β → α} (h : Sound rule fun c b c' => Q c (f b) c') :
    Sound (f <$> rule) Q := by
  rw [← bind_pure_comp]
  exact h.bind fun _ => .pure fun _ _ h => h

theorem ite {p : Prop} [Decidable p] {rule rule' : Rule α} (h : p → Sound rule Q)
    (h' : ¬ p → Sound rule' Q) : Sound (if p then rule else rule') Q := by
  split
  next hp => exact h hp
  next hp => exact h' hp

/-- A rule that fails finds nothing. -/
theorem fail (fault : ParseFault) : Sound (Rule.fail fault : Rule α) Q :=
  ⟨fun c => .refl c, fun _ hr _ => by cases hr⟩

/-- What is found after a report is of no interest. -/
theorem report (e : ParseError) : Sound (Rule.report e) fun _ _ _ => False := by
  refine ⟨fun c => c.reaches_report e, fun {c _ _} _ hr hq => ?_⟩
  cases hr
  have hsize : (c.errors.push e).size = c.errors.size := congrArg Array.size hq
  rw [Array.size_push] at hsize
  omega

/-- A limit that is only reported when it is passed has been kept when nothing is reported. -/
theorem limit {n : Nat} {fault : ParseFault} {next : Unit → Rule α}
    (hn : ∀ u, Sound (next u) fun c a c' => n < maxArity → Q c a c') :
    Sound (if maxArity ≤ n then Rule.peek >>= fun t => Rule.report ⟨t, fault⟩ >>= next
      else next ()) Q := by
  refine .ite (fun _ => ?_) fun h => ?_
  · have hpeek : Sound Rule.peek fun _ _ _ => True := ⟨fun c => .refl c, fun _ _ _ => trivial⟩
    exact .bind hpeek fun t => .bind (.report _) fun u => (hn u).weaken fun _ _ _ _ _ h => h.elim
  · exact (hn ()).weaken fun _ _ _ hq => hq (Nat.lt_of_not_le h)

theorem peek : Sound Rule.peek fun c t c' =>
    c' = c ∧ (t.isEof = true ∨ ∃ rest, c.rest = t :: rest) := by
  refine ⟨fun c => .refl c, fun {c t c'} he hr _ => ?_⟩
  cases hr
  refine ⟨rfl, ?_⟩
  cases hc : c.rest with
  | nil => exact .inl (by rwa [Cursor.peek, hc])
  | cons t rest => exact .inr ⟨rest, by rw [Cursor.peek, hc]; rfl⟩

theorem sees (s : Symbol) : Sound (Rule.sees s) fun c b c' => b = c.sees s ∧ c' = c :=
  ⟨fun c => .refl c, fun _ hr _ => by cases hr; exact ⟨rfl, rfl⟩⟩

theorem atEnd : Sound Rule.atEnd fun c b c' => b = c.rest.isEmpty ∧ c' = c :=
  ⟨fun c => .refl c, fun _ hr _ => by cases hr; exact ⟨rfl, rfl⟩⟩

end Sound

/-- The cursor went behind this token, which was the next one. -/
def Took (c : Cursor) (t : Token) (c' : Cursor) : Prop :=
  c.rest = t :: c'.rest ∧ c'.nextId = c.nextId

theorem took_advance {c : Cursor} {t : Token} {rest : List Token} (h : c.rest = t :: rest) :
    Took c t c.advance := by
  unfold Cursor.advance
  split
  next hn =>
    rw [hn] at h
    cases h
  next hc =>
    rw [h] at hc
    cases hc
    exact ⟨h, rfl⟩

namespace Sound

theorem advance : Sound (modify Cursor.advance : Rule Unit) fun c _ c' =>
    ∀ t rest, c.rest = t :: rest → Took c t c' :=
  ⟨fun c => c.reaches_advance, fun _ hr _ => by
    cases hr
    exact fun t rest h => took_advance h⟩

theorem accept? (symbols : List Symbol) : Sound (Rule.accept? symbols) fun c t? c' =>
    match t? with
    | some t => Took c t c' ∧ symbols.any t.is = true
    | none => c' = c ∧ ∀ t rest, c.rest = t :: rest → symbols.any t.is = false := by
  refine ⟨fun c => ?_, fun {c t? c'} _ hr _ => ?_⟩
  · unfold Rule.accept?
    split
    · split
      · exact c.reaches_advance
      · exact .refl c
    · exact .refl c
  · unfold Rule.accept? at hr
    split at hr
    next t rest h =>
      split at hr
      next ht => cases hr; exact ⟨took_advance h, ht⟩
      next ht =>
        cases hr
        refine ⟨rfl, fun t' rest' h' => ?_⟩
        rw [h] at h'
        cases h'
        exact Bool.eq_false_iff.2 ht
    next h =>
      cases hr
      exact ⟨rfl, fun t rest h' => by rw [h] at h'; cases h'⟩

theorem require (s : Symbol) (place : Place) : Sound (Rule.require s place) fun c t c' =>
    Took c t c' ∧ t.is s = true := by
  refine .bind (accept? [s]) fun t? => ?_
  cases t? with
  | none => exact .fail _
  | some t => exact .pure fun c' c h => by simpa using h

theorem requireName (of : Named) : Sound (Rule.requireName of) fun c t c' =>
    Took c t c' ∧ t.isIdentifier = true := by
  refine ⟨fun c => ?_, fun {c t? c'} _ hr _ => ?_⟩
  · unfold Rule.requireName
    split
    · split
      · exact c.reaches_advance
      · exact .refl c
    · exact .refl c
  · unfold Rule.requireName at hr
    split at hr
    next t rest h =>
      split at hr
      next ht => cases hr; exact ⟨took_advance h, ht⟩
      next => cases hr
    next => cases hr

theorem freshId : Sound Rule.freshId fun c id c' =>
    id = c.nextId ∧ c'.nextId = c.nextId + 1 ∧ c'.rest = c.rest :=
  ⟨fun _ => ⟨rfl, Nat.le_succ _, List.prefix_rfl, id⟩,
    fun _ hr _ => by cases hr; exact ⟨rfl, rfl, rfl⟩⟩

theorem modify {f : Cursor → Cursor} (h : ∀ c : Cursor, c.Reaches (f c)) :
    Sound (modify f : Rule Unit) fun _ _ _ => True :=
  ⟨h, fun _ _ _ => trivial⟩

/-- A failure that is reported has been noticed. -/
theorem recover {Q : Cursor → α → Cursor → Prop} {rule : Rule α} {handler : ParseError → Rule α}
    (h : Sound rule Q) (hr : ∀ e, Sound (handler e) fun _ _ _ => False) :
    Sound (Rule.recover rule handler) Q := by
  constructor
  · intro c
    have hc := h.reaches c
    unfold Rule.recover
    split
    next hok => rwa [hok] at hc
    next e c' herror =>
      rw [herror] at hc
      exact hc.trans ((hr e).reaches c')
  · intro c a c'' he hok hq
    have hc := h.reaches c
    unfold Rule.recover at hok
    split at hok
    next hfirst =>
      cases hok
      exact h.quiet he hfirst hq
    next e c' herror =>
      rw [herror] at hc
      have hc' : c'.Reaches c'' := by
        have := (hr e).reaches c'
        rwa [hok] at this
      exact ((hr e).quiet (hc.eof ▸ he) hok (hc.quiet_right hc' hq)).elim

/-! ## Rules that use themselves -/

variable {body : (β → Rule α) → β → Rule α} {Q : β → Cursor → α → Cursor → Prop}

theorem below_fix (h : ∀ again, (∀ b, Sound (again b) (Q b)) → ∀ b, Sound (body again b) (Q b))
    (n : Nat) : ∀ b, Sound (below n (Rule.fix body) b) (Q b) := by
  induction n using Nat.strongRecOn with
  | ind n ih =>
    intro b
    constructor
    · intro c
      unfold below
      split
      next hc =>
        rw [fix_eq]
        exact (h _ (ih c.left hc) b).reaches c
      next => exact .refl c
    · intro c a c' he hr hq
      unfold below at hr
      split at hr
      next hc =>
        rw [fix_eq] at hr
        exact (h _ (ih c.left hc) b).quiet he hr hq
      next => cases hr

/-- A rule is sound if its body is, whenever the uses of itself in it are. -/
theorem fix (h : ∀ again, (∀ b, Sound (again b) (Q b)) → ∀ b, Sound (body again b) (Q b)) (b : β) :
    Sound (Rule.fix body b) (Q b) := by
  constructor
  · intro c
    rw [fix_eq]
    exact (h _ (below_fix h c.left) b).reaches c
  · intro c a c' he hr hq
    rw [fix_eq] at hr
    exact (h _ (below_fix h c.left) b).quiet he hr hq

end Sound

end Rule

end Lox.Grammar
