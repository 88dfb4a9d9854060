/-
What is noted in the course of a session: its class statements and its completed
assignments to properties (`Phase.Course`). What a phase holds can be read off these
notes (`Course.recorded`): a field has the value that was written last, and each
class that exists has the methods of the one statement that made it.
-/
import Lox.Proofs.Machine.Fields
import Lox.Proofs.Session.Course

namespace Lox

/-- What may matter to a property: a class statement, which makes a class of declarations in an
environment, or a completed assignment to a property. -/
inductive Note
  | declared (c : Class) (decls : List FunctionDecl) (env : Env)
  | wrote (o : Instance) (name : String) (v : Value)

/-- What the next step does that may matter. -/
def Machine.note? (m : Machine) : Option Note :=
  match m.control with
  | .exec (.class name decls) _ => some (.declared (m.state.declared name decls) decls m.state.env)
  | .value v (.push (.fieldValue o name) _) => some (.wrote o name.lexeme v)
  | _ => none

/-- What may matter of the next `n` steps, the latest first. -/
def Machine.notes (m : Machine) : Nat → List Note
  | 0 => []
  | n + 1 => (m.run n).note?.toList ++ m.notes n

/-- The value of the last assignment to this property of the object. -/
def lastWrite (o : ObjectId) (name : String) : List Note → Option Value
  | [] => none
  | .wrote p field v :: notes => if p.id = o ∧ field = name then some v else lastWrite o name notes
  | .declared .. :: notes => lastWrite o name notes

/-- The class of an object, or the class itself. -/
def Value.class? : Value → Option Class
  | .callable (.class c) => some c
  | .object o => some o.cls
  | _ => none

theorem Machine.note?_of_isDone {m : Machine} (h : m.isDone = true) : m.note? = none := by
  obtain ⟨s, c⟩ := m
  cases c with
  | eval | exec => cases h
  | value v k =>
    cases k with
    | bottom => rfl
    | push => cases h
  | flow | raise => rfl

theorem Machine.declared_of_note? {m : Machine} {c : Class} {decls : List FunctionDecl} {env : Env}
    (h : m.note? = some (.declared c decls env)) : ∃ name k,
      m.control = .exec (.class name decls) k ∧ c = m.state.declared name decls ∧
        env = m.state.env := by
  unfold note? at h
  split at h
  next name decls' k hc =>
    cases h
    exact ⟨name, k, hc, rfl, rfl⟩
  next => cases h
  next => cases h

theorem Machine.wrote_of_note? {m : Machine} {o : Instance} {name : String} {v : Value}
    (h : m.note? = some (.wrote o name v)) : ∃ token k, token.lexeme = name ∧
      m.control = .value v (.push (.fieldValue o token) k) := by
  unfold note? at h
  split at h
  next => cases h
  next v' o' token k hc =>
    cases h
    exact ⟨token, k, rfl, hc⟩
  next => cases h

theorem Machine.note?_of_class {m : Machine} {name : Token} {decls : List FunctionDecl}
    {k : Stack .flow} (h : m.control = .exec (.class name decls) k) :
    m.note? = some (.declared (m.state.declared name decls) decls m.state.env) := by
  simp only [note?, h]

theorem Machine.note?_of_write {m : Machine} {o : Instance} {name : Token} {v : Value}
    {k : Stack .value} (h : m.control = .value v (.push (.fieldValue o name) k)) :
    m.note? = some (.wrote o name.lexeme v) := by
  simp only [note?, h]

/-- Only a completed assignment changes what was assigned last. -/
theorem lastWrite_of_not_write {m : Machine} (h : m.control.write? = none) (o : ObjectId)
    (name : String) (notes : List Note) :
    lastWrite o name (m.note?.toList ++ notes) = lastWrite o name notes := by
  unfold Machine.note?
  split
  next => rfl
  next hc =>
    rw [hc] at h
    cases h
  next => rfl

/-- Assignments to other instances or to other names do not matter. -/
theorem lastWrite_append {o : ObjectId} {name : String} {more notes : List Note}
    (h : ∀ o' v, .wrote o' name v ∈ more → o'.id ≠ o) :
    lastWrite o name (more ++ notes) = lastWrite o name notes := by
  induction more with
  | nil => rfl
  | cons note more ih =>
    have hmore := ih fun o' v hv => h o' v (List.mem_cons_of_mem _ hv)
    cases note with
    | declared => exact hmore
    | wrote o' field v =>
      refine (if_neg ?_).trans hmore
      rintro ⟨ho, rfl⟩
      exact h o' v (List.mem_cons_self ..) ho

namespace Phase

def state : Phase → State
  | .idle s => s.state
  | .busy _ m => m.state

def note? : Phase → Option Note
  | .idle _ => none
  | .busy _ m => m.note?

/-- A session comes to the phase, with a clock that reads this, and on the way these things have
happened, the latest first. -/
inductive Course (readings : Nat → Int64) : Phase → List Note → Prop
  | start : Course readings (.idle (.initial readings)) []
  | next {p q notes} : Course readings p notes → p.Next q →
    Course readings q (p.note?.toList ++ notes)

variable {readings : Nat → Int64} {p q : Phase} {s : Session} {m : Machine} {notes : List Note}

/-! ## Courses -/

namespace Course

theorem reached (h : Course readings p notes) : p.Reached readings := by
  induction h with
  | start => exact .refl
  | next _ hn ih => exact ih.tail hn

/-- In the midst of a chunk the course of a session goes on with the steps of the machine. -/
theorem run (h : Course readings (.busy s m) notes) (n : Nat) :
    Course readings (.busy s (m.run n)) (m.notes n ++ notes) := by
  induction n with
  | zero => exact h
  | succ n ih =>
    rw [Machine.run_last, Machine.notes, List.append_assoc]
    exact ih.next .step

end Course

theorem Reached.course (h : p.Reached readings) : ∃ notes, Course readings p notes := by
  induction h with
  | refl => exact ⟨[], .start⟩
  | tail _ hn ih =>
    obtain ⟨notes, hp⟩ := ih
    exact ⟨_, hp.next hn⟩

/-- Between the steps of its machines nothing is noted. -/
theorem note?_of_isDone (h : ∀ s m, p = .busy s m → m.isDone = true) : p.note? = none := by
  cases p with
  | idle => rfl
  | busy s m => exact Machine.note?_of_isDone (h s m rfl)

/-- Numbers are not taken back. -/
theorem Leads.stamps (h : p.Leads q) : p.store.nextStamp ≤ q.store.nextStamp := by
  induction h with
  | refl => exact Nat.le_refl _
  | tail _ hn ih =>
    rcases hn.step_or_idle with ⟨s, m, rfl, rfl⟩ | ⟨hs, -, -⟩
    · exact Nat.le_trans ih m.stamps_step
    · rwa [hs]

/-- An object that does not exist any longer does not come back. -/
theorem Leads.holds_object (h : p.Leads q) {o : Instance} (hlt : o.id < p.store.objects.size)
    (hp : p.Reached readings) (ho : q.Holds (.object o)) : p.Holds (.object o) := by
  induction h with
  | refl => exact ho
  | tail hl hn ih =>
    rcases hn.holds ho with ho | ⟨s, m, rfl, rfl, hmade⟩
    · exact ih ho
    · rw [hmade.object_inv.1] at hlt
      exact absurd (Leads.keeps hp hl).objects (Nat.not_le.2 hlt)

/-! ## What is recorded -/

/-- What the phase holds is in accord with what has happened. -/
structure Recorded (p : Phase) (notes : List Note) : Prop where
  functions : ∀ f, p.Holds (.callable (.closure f)) → f.stamp < p.store.nextStamp
  classes : ∀ v c, p.Holds v → v.class? = some c → ∃ decls env, .declared c decls env ∈ notes
  declared : ∀ c decls env, .declared c decls env ∈ notes →
    c.stamp < p.store.nextStamp ∧ c.MadeOf decls env
  unique : ∀ c decls env decls' env', .declared c decls env ∈ notes →
    .declared c decls' env' ∈ notes → decls' = decls ∧ env' = env
  objects : ∀ o o', p.Holds (.object o) → p.Holds (.object o') → o'.id = o.id → o' = o
  fields : ∀ o name, (p.store.fields o).get? name = lastWrite o name notes

/-- As long as nothing happens, less may exist. -/
theorem Recorded.mono (h : p.Recorded notes) (hs : q.store = p.store)
    (hq : ∀ v, q.Holds v → p.Holds v) : q.Recorded notes := by
  obtain ⟨hfunctions, hclasses, hdeclared, hunique, hobjects, hfields⟩ := h
  refine ⟨fun f hf => ?_, fun v c hv => hclasses v c (hq v hv), ?_, hunique,
    fun o o' ho ho' => hobjects o o' (hq _ ho) (hq _ ho'), ?_⟩
  · rw [hs]
    exact hfunctions f (hq _ hf)
  · rwa [hs]
  · rwa [hs]

theorem recorded_initial (readings : Nat → Int64) :
    (Phase.idle (.initial readings)).Recorded [] := by
  refine ⟨fun f hf => ?_, fun v c hv hc => ?_, nofun, nofun, fun o _ ho => ?_, fun _ _ => rfl⟩
  · cases holds_initial hf
  · rw [holds_initial hv] at hc
    cases hc
  · cases holds_initial ho

section

variable (hr : (Phase.busy s m).Reached readings) (h : (Phase.busy s m).Recorded notes)

include h

theorem Recorded.functions_step {f : Closure} (hf : m.step.Holds (.callable (.closure f))) :
    f.stamp < m.step.state.store.nextStamp := by
  rcases Machine.holds_step hf with hf | hmade
  · exact Nat.lt_of_lt_of_le (h.functions f hf) m.stamps_step
  · exact hmade.stamp

theorem Recorded.classes_step {v : Value} {c : Class} (hv : m.step.Holds v)
    (hc : v.class? = some c) : ∃ decls env, .declared c decls env ∈ m.note?.toList ++ notes := by
  have old {v : Value} (hv : m.Holds v) (hc : v.class? = some c) :
      ∃ decls env, .declared c decls env ∈ m.note?.toList ++ notes := by
    obtain ⟨decls, env, hmem⟩ := h.classes v c hv hc
    exact ⟨decls, env, List.mem_append_right _ hmem⟩
  rcases Machine.holds_step hv with hv | hmade
  · exact old hv hc
  cases hmade with
  | plain hp =>
    cases v with
    | callable | object => exact hp.elim
    | _ => cases hc
  | bound | function => cases hc
  | object hcalls =>
    -- The new object has the class that is called.
    cases hc
    exact old (.inr hcalls.mem_values) rfl
  | «class» hcontrol =>
    rcases Machine.holds_declared hcontrol hv with hv | hv
    · exact old hv hc
    · rw [hv] at hc
      cases hc
      rw [Machine.note?_of_class hcontrol]
      exact ⟨_, _, List.mem_cons_self ..⟩

theorem Recorded.declared_step {c : Class} {decls : List FunctionDecl} {env : Env}
    (hc : .declared c decls env ∈ m.note?.toList ++ notes) :
    c.stamp < m.step.state.store.nextStamp ∧ c.MadeOf decls env := by
  rcases List.mem_append.1 hc with hnew | hold
  · obtain ⟨name, k, hcontrol, rfl, rfl⟩ :=
      Machine.declared_of_note? (Option.mem_toList.1 hnew)
    exact ⟨(Machine.stamp_declared hcontrol).2, m.state.madeOf_declared name decls⟩
  · obtain ⟨hstamp, hmade⟩ := h.declared c decls env hold
    exact ⟨Nat.lt_of_lt_of_le hstamp m.stamps_step, hmade⟩

/-- A class is declared once: a new one has a number that no class had before. -/
theorem Recorded.unique_step {c : Class} {decls decls' : List FunctionDecl} {env env' : Env}
    (hc : .declared c decls env ∈ m.note?.toList ++ notes)
    (hc' : .declared c decls' env' ∈ m.note?.toList ++ notes) : decls' = decls ∧ env' = env := by
  have fresh {decls decls' : List FunctionDecl} {env env' : Env}
      (hnew : m.note? = some (.declared c decls env)) (hold : .declared c decls' env' ∈ notes) :
      False := by
    obtain ⟨name, k, hcontrol, rfl, rfl⟩ := Machine.declared_of_note? hnew
    exact Nat.not_lt.2 (Machine.stamp_declared hcontrol).1 (h.declared _ _ _ hold).1
  rcases List.mem_append.1 hc with hnew | hold
  · rcases List.mem_append.1 hc' with hnew' | hold'
    · cases (Option.mem_toList.1 hnew).symm.trans (Option.mem_toList.1 hnew')
      exact ⟨rfl, rfl⟩
    · exact (fresh (Option.mem_toList.1 hnew) hold').elim
  · rcases List.mem_append.1 hc' with hnew' | hold'
    · exact (fresh (Option.mem_toList.1 hnew') hold).elim
    · exact h.unique c decls env decls' env' hold hold'

include hr

theorem Recorded.objects_step {o o' : Instance} (ho : m.step.Holds (.object o))
    (ho' : m.step.Holds (.object o')) (hid : o'.id = o.id) : o' = o := by
  have fresh {o o' : Instance} (ho : m.Makes (.object o)) (ho' : m.Holds (.object o'))
      (hid : o'.id = o.id) : False := by
    have hlt := hr.object ho'
    rw [hid, ho.object_inv.1] at hlt
    exact Nat.lt_irrefl _ hlt
  rcases Machine.holds_step ho with hold | hmade
  · rcases Machine.holds_step ho' with hold' | hmade'
    · exact h.objects o o' hold hold' hid
    · exact (fresh hmade' hold hid.symm).elim
  · rcases Machine.holds_step ho' with hold' | hmade'
    · exact (fresh hmade hold' hid).elim
    · exact hmade.object_unique hmade'

theorem Recorded.fields_step (o : ObjectId) (name : String) :
    (m.step.state.store.fields o).get? name = lastWrite o name (m.note?.toList ++ notes) := by
  have hbefore : (m.state.store.fields o).get? name = lastWrite o name notes := h.fields o name
  cases hw : m.control.write? with
  | none => rw [(Machine.retains_step hw).fields o, lastWrite_of_not_write hw, hbefore]
  | some write =>
    obtain ⟨p, token, v⟩ := write
    obtain ⟨k, hc⟩ := Machine.control_of_write? hw
    have hlt : p.id < m.state.store.objects.size :=
      hr.object (.inr (by rw [hc]; exact List.mem_cons_of_mem _ (List.mem_cons_self ..)))
    rw [Machine.step_of_write hc, Machine.note?_of_write hc, Option.toList_some,
      List.singleton_append, lastWrite, Store.fields_setField]
    by_cases ho : o = p.id
    · subst ho
      rw [if_pos ⟨rfl, hlt⟩, Bindings.get?_set, hbefore]
      simp only [true_and, eq_comm]
    · rw [if_neg fun h => ho h.1, if_neg fun h => ho h.1.symm, hbefore]

theorem Recorded.step : (Phase.busy s m.step).Recorded (m.note?.toList ++ notes) where
  functions _ hf := h.functions_step hf
  classes _ _ hv hc := h.classes_step hv hc
  declared _ _ _ hc := h.declared_step hc
  unique _ _ _ _ _ hc hc' := h.unique_step hc hc'
  objects _ _ ho ho' hid := h.objects_step hr ho ho' hid
  fields o name := h.fields_step hr o name

end

theorem Course.recorded (h : Course readings p notes) : p.Recorded notes := by
  induction h with
  | start => exact recorded_initial readings
  | @next p q notes hp hn ih =>
    rcases hn.step_or_idle with ⟨s, m, rfl, rfl⟩ | ⟨hs, hdone, hq⟩
    · exact ih.step hp.reached
    · rw [note?_of_isDone hdone]
      exact ih.mono hs hq

end Phase

end Lox
