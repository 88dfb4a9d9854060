/-
What comes of a call. A call of a function that is over has raised an error, or
the last thing was the end of the body (`Returns.closure`); what an initializer
yields then is the receiver in the frame of its environment (`Returns.init`), and
a call of a class yields the instance that it made (`Returns.class`).
-/
import Lox.Proofs.Machine.Hosted

namespace Lox

variable {callee : Value} {k : Stack .value}

namespace Control

theorem Calls.beyond {c : Control} (h : c.Calls callee k) : c.Beyond k := by
  cases h with
  | plain => exact ⟨_, _, .refl⟩
  | last => exact ⟨_, _, .refl⟩

theorem Calls.mem_values {c : Control} (h : c.Calls callee k) : callee ∈ c.values := by
  cases h <;> simp [values, Stack.values, Waiting.values]

theorem not_beyond_ofResult (r : Except RuntimeError Value) (k : Stack .value) :
    ¬ (Control.ofResult r k).Beyond k := by
  cases r with
  | ok v => exact not_beyond_value v k
  | error e => exact not_beyond_raise e k

end Control

namespace Machine

variable {m : Machine} {n : Nat}

/-- A call that is about to be made is made. -/
theorem step_of_calls (h : m.control.Calls callee k) :
    ∃ paren args, m.step = call m.state callee paren args k := by
  obtain ⟨s, c⟩ := m
  cases h with
  | plain => exact ⟨_, _, rfl⟩
  | last => exact ⟨_, _, rfl⟩

/-- A call of a function fails at once or starts the body. -/
theorem step_closure {f : Closure} (h : m.control.Calls (.callable (.closure f)) k) :
    (∃ e, m.step = ⟨m.state, .raise e k⟩) ∨ ∃ args, m.step = enterBody m.state f args k := by
  obtain ⟨paren, args, hstep⟩ := step_of_calls h
  rw [hstep]
  obtain hfails | ⟨_, hf, -, -, hcall⟩ := call_cases m.state (.callable (.closure f)) paren args k
  · exact .inl hfails
  · cases hf
    exact .inr ⟨args, hcall⟩

/-- A call of a class fails at once or makes an instance. -/
theorem step_class {c : Class} (h : m.control.Calls (.callable (.class c)) k) :
    (∃ e, m.step = ⟨m.state, .raise e k⟩) ∨ ∃ args, m.step = instantiate m.state c args k := by
  obtain ⟨paren, args, hstep⟩ := step_of_calls h
  rw [hstep]
  obtain hfails | ⟨_, hf, -, -, hcall⟩ := call_cases m.state (.callable (.class c)) paren args k
  · exact .inl hfails
  · cases hf
    exact .inr ⟨args, hcall⟩

/-- A call that is over after some steps takes at least one, and what is left of it behind this one
is over as well. -/
theorem Returns.of_calls (h : m.Returns k n) (hc : m.control.Calls callee k) :
    ∃ n', n = n' + 1 ∧ m.step.Returns k n' := by
  cases n with
  | zero => exact absurd hc.beyond h.after
  | succ n => exact ⟨n, rfl, h.step⟩

/-- Nothing is left to do from the start. -/
theorem Returns.eq_zero (h : m.Returns k n) (hm : ¬ m.control.Beyond k) : n = 0 := by
  cases n with
  | zero => rfl
  | succ n => exact absurd (h.before 0 (Nat.succ_pos n)) hm

/-! ## Functions -/

theorem serves_body {f : Closure} (h : m.control.Serves k (.body f)) :
    (∃ ended, m.control = .flow ended (.push (.body f) k) ∧
      m.step.control = .ofResult (f.result m.state.store ended) k) ∨
    ∃ e, m.step.control = .raise e k := by
  obtain ⟨s, c⟩ := m
  cases h with
  | flow ended => exact .inl ⟨ended, rfl, rfl⟩
  | raise e => exact .inr ⟨e, rfl⟩

/-- When a call of a function is over there is an error, or the body has ended just before. -/
theorem Returns.closure {f : Closure} (hc : m.control.Calls (.callable (.closure f)) k)
    (h : m.Returns k n) :
    (∃ i ended, n = i + 1 ∧ (m.run n).control = .ofResult (f.result (m.run i).state.store ended) k) ∨
    ∃ e, (m.run n).control = .raise e k := by
  obtain ⟨n, rfl, hrest⟩ := h.of_calls hc
  rw [run_succ]
  obtain ⟨e, hstep⟩ | ⟨args, hstep⟩ := step_closure hc
  · obtain rfl : n = 0 := hrest.eq_zero (hstep ▸ Control.not_beyond_raise e k)
    exact .inr ⟨e, by rw [run_zero, hstep]⟩
  · have hover : m.step.control.Over (.push (.body f) k) := hstep ▸ over_enterBody f args k
    obtain ⟨i, rfl, hserves⟩ := hrest.serves hover fun m' hs => by
      obtain ⟨ended, -, hlast⟩ | ⟨e, hlast⟩ := serves_body hs
      · rw [hlast]
        exact Control.not_beyond_ofResult _ k
      · rw [hlast]
        exact Control.not_beyond_raise e k
    rw [run_last]
    obtain ⟨ended, -, hlast⟩ | ⟨e, hlast⟩ := serves_body hserves
    · exact .inl ⟨i + 1, ended, rfl, by rw [hlast, run_succ]⟩
    · exact .inr ⟨e, hlast⟩

/-- A call of an initializer that does not fail yields the receiver in its frame. -/
theorem Returns.init {visits : Site → Visit → Prop} (hW : Layout.Lawful visits)
    (hm : m.Known visits) {f : Closure} (hc : m.control.Calls (.callable (.closure f)) k)
    (hi : f.isInit = true) {o : Instance}
    (ho : (m.state.store.frame f.env.frame).get? receiverName = some (.object o))
    (h : m.Returns k n) :
    (m.run n).control = .value (.object o) k ∨ ∃ e, (m.run n).control = .raise e k := by
  obtain ⟨i, ended, rfl, hlast⟩ | hlast := h.closure hc
  · have hf : f.Known visits m.state.store := (hm.all.holds (.inr hc.mem_values)).1
    have hkept := (hm.run hW i).keeps.receiver _ (hf.env _ (List.mem_cons_self ..))
    have hresult : f.result (m.run i).state.store ended = .ok (.object o) := by
      unfold Closure.result
      rw [if_pos hi, Store.getAt?_zero, hkept, ho]
    rw [hlast, hresult]
    exact .inl rfl
  · exact .inr hlast

/-! ## Classes -/

theorem serves_construct {o : Instance} (h : m.control.Serves k (.construct o)) :
    m.step.control = .value (.object o) k ∨ ∃ e, m.step.control = .raise e k := by
  obtain ⟨s, c⟩ := m
  cases h with
  | value v => exact .inl rfl
  | raise e => exact .inr ⟨e, rfl⟩

/-- A class without an initializer yields the new instance at once, and one with an initializer starts
it, bound to the new instance. -/
theorem instantiate_cases (s : State) (c : Class) (args : List Value) (k : Stack .value) :
    (instantiate s c args k).control = .value (.object ⟨s.store.objects.size, c⟩) k ∨
    ∃ f, c.init? = some f ∧ instantiate s c args k =
      enterBody { s with store := (s.store.addObject.2.bind f ⟨s.store.objects.size, c⟩).2 }
        (s.store.addObject.2.bind f ⟨s.store.objects.size, c⟩).1 args
        (.push (.construct ⟨s.store.objects.size, c⟩) k) := by
  unfold instantiate
  simp only [State.withStore_eq]
  split
  next => exact .inl rfl
  next f hf => exact .inr ⟨f, hf, rfl⟩

/-- A call of a class that does not fail yields the instance that it makes. -/
theorem Returns.class {c : Class} (hc : m.control.Calls (.callable (.class c)) k)
    (h : m.Returns k n) :
    (m.run n).control = .value (.object ⟨m.state.store.objects.size, c⟩) k ∨
    ∃ e, (m.run n).control = .raise e k := by
  obtain ⟨n, rfl, hrest⟩ := h.of_calls hc
  rw [run_succ]
  obtain ⟨e, hstep⟩ | ⟨args, hstep⟩ := step_class hc
  · obtain rfl : n = 0 := hrest.eq_zero (hstep ▸ Control.not_beyond_raise e k)
    exact .inr ⟨e, by rw [run_zero, hstep]⟩
  obtain hmade | ⟨f, -, hstart⟩ := instantiate_cases m.state c args k
  · obtain rfl : n = 0 := hrest.eq_zero (by rw [hstep, hmade]; exact Control.not_beyond_value _ k)
    exact .inl (by rw [run_zero, hstep, hmade])
  · have hover : m.step.control.Over (.push (.construct ⟨m.state.store.objects.size, c⟩) k) := by
      rw [hstep, hstart]
      exact (over_enterBody _ _ _).under (.push trivial .refl)
    obtain ⟨i, rfl, hserves⟩ := hrest.serves hover fun m' hs => by
      obtain hlast | ⟨e, hlast⟩ := serves_construct hs
      · rw [hlast]
        exact Control.not_beyond_value _ k
      · rw [hlast]
        exact Control.not_beyond_raise e k
    rw [run_last]
    exact serves_construct hserves

/-! ## Methods -/

theorem property_of_method {s : State} {o : Instance} {name : Token} {f : Closure}
    (hnone : (s.store.fields o.id).get? name.lexeme = none)
    (hf : o.cls.methods.get? name.lexeme = some f) :
    property s o name k = ⟨{ s with store := (s.store.bind f o).2 },
      .value (.callable (.closure (s.store.bind f o).1)) k⟩ := by
  simp only [property, hnone, hf, State.withStore_eq]

/-- What is bound when a property is read is a method of the class of the instance. -/
theorem Binds.of_property {o : Instance} {name : Token} {f : Closure}
    (hc : m.control = .value (.object o) (.push (.property name) k))
    (hnone : (m.state.store.fields o.id).get? name.lexeme = none)
    (h : m.step.control = .value (.callable (.closure f)) k) :
    ∃ g, o.cls.methods.get? name.lexeme = some g ∧ f = (m.state.store.bind g o).1 ∧
      m.step.state.store = (m.state.store.bind g o).2 := by
  obtain ⟨s, c⟩ := m
  obtain rfl : c = _ := hc
  have hstep : step ⟨s, .value (.object o) (.push (.property name) k)⟩ =
      Machine.property s o name k := rfl
  rw [hstep] at h ⊢
  cases hg : o.cls.methods.get? name.lexeme with
  | none => simp [Machine.property, hnone, hg] at h
  | some g =>
    rw [property_of_method hnone hg] at h ⊢
    cases h
    exact ⟨g, rfl, rfl, rfl⟩

/-- The initializer that a call of a class starts is bound to the new instance. -/
theorem Binds.of_class {c : Class} {o : Instance} {f : Closure} {around : Env}
    (hc : m.control.Calls (.callable (.class c)) k)
    (h : m.step.control = .flow .normal
      (.push (.block f.decl.body around) (.push (.body f) (.push (.construct o) k)))) :
    o = ⟨m.state.store.objects.size, c⟩ ∧ ∃ g args, c.init? = some g ∧
      f = (m.state.store.addObject.2.bind g o).1 ∧
      m.step = enterBody { m.state with store := (m.state.store.addObject.2.bind g o).2 } f args
        (.push (.construct o) k) := by
  obtain ⟨e, hstep⟩ | ⟨args, hstep⟩ := step_class hc
  · rw [hstep] at h
    cases h
  rw [hstep] at h ⊢
  obtain hmade | ⟨g, hg, hstart⟩ := instantiate_cases m.state c args k
  · rw [hmade] at h
    cases h
  · rw [hstart] at h ⊢
    have hcaller := congrArg Stack.caller? (Control.flow.inj h).2
    obtain ⟨rfl, hstack⟩ := Prod.mk.inj (Option.some.inj hcaller)
    cases hstack
    exact ⟨rfl, g, args, hg, rfl, rfl⟩

/-- What is bound when a class is called is bound to the new instance. -/
theorem Binds.eq_new {c : Class} {o : Instance} {f : Closure}
    (hc : m.control.Calls (.callable (.class c)) k) (h : m.Binds o f) :
    o = ⟨m.state.store.objects.size, c⟩ := by
  cases h with
  | property hp =>
    rw [hp] at hc
    cases hc
  | @init c' k' around hc' hlast =>
    have hsame : c' = c := by
      obtain ⟨s, control⟩ := m
      cases hc <;> cases hc' <;> rfl
    exact hsame ▸ (of_class hc' hlast).1

/-- A method that was bound to an instance has it for its receiver, and sets up instances exactly if
its declaration says so. -/
theorem Binds.receiver? {visits : Site → Visit → Prop} (hm : m.Known visits) {o : Instance}
    {f : Closure} (h : m.Binds o f) :
    f.env.In m.step.state.store ∧ m.step.state.store.receiver? f.env = some (.object o) ∧
      f.isInit = f.decl.isInit := by
  cases h with
  | property hc hnone hlast =>
    obtain ⟨g, hg, rfl, hstore⟩ := of_property hc hnone hlast
    have ho := hm.all.holds (v := .object o) (.inr (by rw [hc]; exact List.mem_cons_self ..))
    obtain ⟨hknown, hinit⟩ := ho.2 _ g hg
    obtain ⟨hin, hreceiver, -⟩ := Store.receiver?_bind hknown.env o
    rw [hstore]
    exact ⟨hin, hreceiver, hinit⟩
  | @init c k around hc hlast =>
    obtain ⟨-, g, args, hg, rfl, hstep⟩ := of_class hc hlast
    obtain ⟨hknown, hinit⟩ := hm.all.holds (.inr hc.mem_values) _ g hg
    have hin := m.state.store.keeps_addObject.env_in hknown.env
    obtain ⟨hin, hreceiver, -⟩ := Store.receiver?_bind hin o
    have hkeeps := (m.state.store.addObject.2.bind g o).2.keeps_addFrame
      (Bindings.ofList ((g.decl.params.map Token.lexeme).zip args))
    rw [hstep]
    exact ⟨hkeeps.env_in hin, (hkeeps.receiver? hin).trans hreceiver, hinit⟩

end Machine

end Lox
