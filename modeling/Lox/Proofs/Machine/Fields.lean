/-
What a step does to the fields of objects and to the numbers of callable values.
Only a step that completes an assignment to a property writes a field; all others
leave the fields of every object as they are and at most give out numbers
(`Machine.retains_step`). Each function that a step makes, and the class that a
declaration makes, gets a number that was not given out before.
-/
import Lox.Proofs.Machine.Calls

namespace Lox

/-! ## Stores without a write to a field -/

namespace Store

/-- The fields are the same, and no number was taken back. -/
structure Retains (s s' : Store) : Prop where
  fields : ∀ o, s'.fields o = s.fields o
  stamps : s.nextStamp ≤ s'.nextStamp

variable {s s' : Store}

namespace Retains

theorem refl (s : Store) : s.Retains s := ⟨fun _ => rfl, Nat.le_refl _⟩

theorem trans {s'' : Store} (h : s.Retains s') (h' : s'.Retains s'') : s.Retains s'' :=
  ⟨fun o => (h'.fields o).trans (h.fields o), Nat.le_trans h.stamps h'.stamps⟩

end Retains

theorem retains_setVar (s : Store) (f : FrameId) (name : String) (v : Value) :
    s.Retains (s.setVar f name v) := ⟨fun _ => rfl, Nat.le_refl _⟩

theorem retains_addFrame (s : Store) (vars : Bindings Value) : s.Retains (s.addFrame vars).2 :=
  ⟨fun _ => rfl, Nat.le_refl _⟩

/-- A new object has no fields, like one that has not been made. -/
theorem retains_addObject (s : Store) : s.Retains s.addObject.2 := by
  refine ⟨fun o => ?_, Nat.le_refl _⟩
  rw [fields_addObject]
  split
  next h => simp [h, fields]
  next => rfl

theorem retains_freshStamp (s : Store) : s.Retains s.freshStamp.2 :=
  ⟨fun _ => rfl, Nat.le_succ _⟩

theorem retains_bind (s : Store) (f : Closure) (o : Instance) : s.Retains (s.bind f o).2 :=
  (s.retains_addFrame _).trans (retains_freshStamp _)

theorem retains_closure (s : Store) (decl : FunctionDecl) (env : Env) (isInit : Bool) :
    s.Retains (s.closure decl env isInit).2 := s.retains_freshStamp

theorem retains_methods (env : Env) (decls : List FunctionDecl) (s : Store)
    (found : Bindings Closure) : s.Retains (s.methods env decls found).2 := by
  induction decls generalizing s found with
  | nil => exact .refl s
  | cons decl rest ih => exact (s.retains_closure decl env decl.isInit).trans (ih _ _)

end Store

/-! ## Classes -/

/-- The last declaration of this name. -/
def lastNamed (decls : List FunctionDecl) (name : String) : Option FunctionDecl :=
  decls.reverse.find? fun decl => decl.name.lexeme == name

/-- The methods are those that a class statement with these declarations makes in the environment:
under each name the last one of it. -/
def Class.MadeOf (c : Class) (decls : List FunctionDecl) (env : Env) : Prop :=
  ∀ name, match lastNamed decls name with
    | some decl => ∃ stamp, c.methods.get? name = some ⟨stamp, decl, env, decl.isInit⟩
    | none => c.methods.get? name = none

/-- The class that a class statement makes in this state. -/
def State.declared (s : State) (name : Token) (decls : List FunctionDecl) : Class :=
  let (methods, store) := s.store.methods s.env decls .empty
  ⟨store.nextStamp, name.lexeme, methods⟩

theorem lastNamed_cons (decl : FunctionDecl) (rest : List FunctionDecl) (name : String) :
    lastNamed (decl :: rest) name =
      (lastNamed rest name).or (if decl.name.lexeme = name then some decl else none) := by
  simp only [lastNamed, List.reverse_cons, List.find?_append, List.find?_singleton, beq_iff_eq]

/-- The methods found before stay where no declaration has their name. -/
theorem Store.get?_methods (env : Env) (decls : List FunctionDecl) (s : Store)
    (found : Bindings Closure) (name : String) :
    match lastNamed decls name with
    | some decl => ∃ stamp,
      (s.methods env decls found).1.get? name = some ⟨stamp, decl, env, decl.isInit⟩
    | none => (s.methods env decls found).1.get? name = found.get? name := by
  induction decls generalizing s found with
  | nil => rfl
  | cons decl rest ih =>
    have hrest := ih (s.closure decl env decl.isInit).2
      (found.set decl.name.lexeme (s.closure decl env decl.isInit).1)
    rw [lastNamed_cons]
    cases hl : lastNamed rest name with
    | some last =>
      rw [hl] at hrest
      exact hrest
    | none =>
      rw [hl, Bindings.get?_set] at hrest
      by_cases hn : decl.name.lexeme = name
      · rw [if_pos hn.symm] at hrest
        rw [if_pos hn]
        exact ⟨s.nextStamp, hrest⟩
      · rw [if_neg (Ne.symm hn)] at hrest
        rw [if_neg hn]
        exact hrest

theorem State.madeOf_declared (s : State) (name : Token) (decls : List FunctionDecl) :
    (s.declared name decls).MadeOf decls s.env :=
  s.store.get?_methods s.env decls .empty

/-! ## Steps -/

/-- The instance, the name and the value of the assignment to a property that the next step
completes. -/
def Control.write? : Control → Option (Instance × Token × Value)
  | .value v (.push (.fieldValue o name) _) => some (o, name, v)
  | _ => none

/-- At most one value is called. -/
theorem Control.Calls.unique {c : Control} {callee callee' : Value} {k k' : Stack .value}
    (h : c.Calls callee k) (h' : c.Calls callee' k') : callee' = callee := by
  cases h <;> cases h' <;> rfl

namespace Machine

section

variable (s : State)

theorem retains_assign (id : NodeId) (name : Token) (v : Value) (k : Stack .value) :
    s.store.Retains (assign s id name v k).state.store := by
  unfold assign
  split
  next f _ => exact s.store.retains_setVar f name.lexeme v
  next => exact .refl _

theorem retains_property (o : Instance) (name : Token) (k : Stack .value) :
    s.store.Retains (property s o name k).state.store := by
  unfold property
  split
  next => exact .refl _
  next =>
    split
    next f _ => exact s.store.retains_bind f o
    next => exact .refl _

theorem retains_callNative (f : Native) (args : List Value) (k : Stack .value) :
    s.store.Retains (callNative s f args k).state.store := by
  obtain ⟨time, v, -, hcall⟩ := callNative_cases s f args k
  rw [hcall]
  exact .refl _

theorem retains_enterBody (f : Closure) (args : List Value) (k : Stack .value) :
    s.store.Retains (enterBody s f args k).state.store := s.store.retains_addFrame _

theorem retains_instantiate (c : Class) (args : List Value) (k : Stack .value) :
    s.store.Retains (instantiate s c args k).state.store := by
  have hobject := s.store.retains_addObject
  unfold instantiate
  simp only [State.withStore_eq]
  split
  next => exact hobject
  next f _ => exact hobject.trans ((Store.retains_bind _ f _).trans (Store.retains_addFrame _ _))

theorem retains_call (callee : Value) (paren : Token) (args : List Value) (k : Stack .value) :
    s.store.Retains (call s callee paren args k).state.store := by
  obtain ⟨e, hcall⟩ | ⟨f, -, -, -, hcall⟩ := call_cases s callee paren args k
  · rw [hcall]
    exact .refl _
  · rw [hcall]
    cases f with
    | native f => exact retains_callNative s f args k
    | closure f => exact retains_enterBody s f args k
    | «class» c => exact retains_instantiate s c args k

theorem retains_nextArgument (callee : Value) (paren : Token) (done : List Value)
    (rest : List Expr) (k : Stack .value) :
    s.store.Retains (nextArgument s callee paren done rest k).state.store := by
  cases rest with
  | nil => exact retains_call s callee paren done.reverse k
  | cons => exact .refl _

theorem retains_exec (stmt : Stmt) (k : Stack .flow) :
    s.store.Retains (exec s k stmt).state.store := by
  cases stmt with
  | var name init =>
    cases init with
    | none => exact s.store.retains_setVar _ _ _
    | some => exact .refl _
  | block => exact s.store.retains_addFrame _
  | function decl =>
    exact (s.store.retains_closure decl s.env false).trans (Store.retains_setVar ..)
  | ret keyword value => cases value <;> exact .refl _
  | «class» name decls =>
    exact (s.store.retains_methods s.env decls .empty).trans
      ((Store.retains_freshStamp _).trans (Store.retains_setVar ..))
  | _ => exact .refl _

theorem retains_serveValue (v : Value) {b : Yield} (w : Waiting .value b) (k : Stack b)
    (h : (Control.value v (.push w k)).write? = none) :
    s.store.Retains (serveValue s v w k).state.store := by
  cases w with
  | assign id name => exact retains_assign s id name v k
  | callee paren args => exact retains_nextArgument s v paren [] args k
  | argument callee paren done rest => exact retains_nextArgument s callee paren _ rest k
  | property name =>
    cases v with
    | object o => exact retains_property s o name k
    | _ => exact .refl _
  | fieldObject name e => cases v <;> exact .refl _
  | fieldValue => cases h
  | define name => exact s.store.retains_setVar _ _ _
  | logical op right => rw [serveValue]; split <;> exact .refl _
  | branch thenPart elsePart =>
    cases elsePart with
    | none | some => rw [serveValue]; split <;> exact .refl _
  | loopTest test body => rw [serveValue]; split <;> exact .refl _
  | _ => exact .refl _

theorem retains_serveFlow (f : Flow) {b : Yield} (w : Waiting .flow b) (k : Stack b) :
    s.store.Retains (serveFlow s f w k).state.store := by
  cases w with
  | block rest around =>
    cases f with
    | normal => cases rest <;> exact .refl _
    | returned => exact .refl _
  | loopBody => cases f <;> exact .refl _
  | body => exact .refl _
  | program rest => cases rest <;> exact .refl _

end

variable {m : Machine}

/-- A step that completes no assignment to a property writes no field. -/
theorem retains_step (h : m.control.write? = none) :
    m.state.store.Retains m.step.state.store := by
  obtain ⟨s, c⟩ := m
  cases c with
  | eval e k => cases e <;> exact .refl _
  | exec stmt k => exact retains_exec s stmt k
  | value v k =>
    cases k with
    | bottom => exact .refl _
    | push w k => exact retains_serveValue s v w k h
  | flow f k =>
    cases k with
    | bottom => exact .refl _
    | push w k => exact retains_serveFlow s f w k
  | raise e k =>
    cases k with
    | bottom => exact .refl _
    | push w k => cases w <;> exact .refl _

theorem control_of_write? {o : Instance} {name : Token} {v : Value}
    (h : m.control.write? = some (o, name, v)) :
    ∃ k, m.control = .value v (.push (.fieldValue o name) k) := by
  unfold Control.write? at h
  split at h
  next v' o' name' k hc =>
    cases h
    exact ⟨k, hc⟩
  next => cases h

theorem step_of_write {o : Instance} {name : Token} {v : Value} {k : Stack .value}
    (h : m.control = .value v (.push (.fieldValue o name) k)) :
    m.step = ⟨{ m.state with store := m.state.store.setField o.id name.lexeme v }, .value v k⟩ := by
  obtain ⟨s, c⟩ := m
  obtain rfl : c = _ := h
  rfl

/-- No step takes a number back. -/
theorem stamps_step (m : Machine) : m.state.store.nextStamp ≤ m.step.state.store.nextStamp := by
  cases h : m.control.write? with
  | none => exact (retains_step h).stamps
  | some write =>
    obtain ⟨k, hc⟩ := control_of_write? h
    rw [step_of_write hc]
    exact Nat.le_refl _

/-! ## What a step makes -/

/-- A method that is bound gets the next number. -/
theorem Binds.stamp {o : Instance} {f : Closure} (h : m.Binds o f) :
    f.stamp < m.step.state.store.nextStamp := by
  cases h with
  | property hc hnone hlast =>
    obtain ⟨g, -, rfl, hstore⟩ := Binds.of_property hc hnone hlast
    rw [hstore]
    exact Nat.lt_succ_self m.state.store.nextStamp
  | init hc hlast =>
    obtain ⟨-, g, args, -, rfl, hstep⟩ := Binds.of_class hc hlast
    rw [hstep]
    exact Nat.lt_succ_self m.state.store.nextStamp

/-- A function that a step makes gets the next number. -/
theorem Makes.stamp {f : Closure} (h : m.Makes (.callable (.closure f))) :
    f.stamp < m.step.state.store.nextStamp := by
  cases h with
  | plain hp => exact hp.elim
  | bound hb => exact hb.stamp
  | @function decl k hc =>
    obtain ⟨s, c⟩ := m
    obtain rfl : c = _ := hc
    exact Nat.lt_succ_self s.store.nextStamp

/-- A new object gets the next number of objects, and its class is called. -/
theorem Makes.object_inv {o : Instance} (h : m.Makes (.object o)) :
    o.id = m.state.store.objects.size ∧ ∃ k, m.control.Calls (.callable (.class o.cls)) k := by
  cases h with
  | plain hp => exact hp.elim
  | object hc => exact ⟨rfl, _, hc⟩

/-- A step makes one object at most. -/
theorem Makes.object_unique {o o' : Instance} (h : m.Makes (.object o))
    (h' : m.Makes (.object o')) : o' = o := by
  obtain ⟨hid, k, hc⟩ := h.object_inv
  obtain ⟨hid', k', hc'⟩ := h'.object_inv
  obtain ⟨id, c⟩ := o
  obtain ⟨id', c'⟩ := o'
  obtain rfl : id = _ := hid
  obtain rfl : id' = _ := hid'
  cases hc.unique hc'
  rfl

section

variable {name : Token} {decls : List FunctionDecl} {k : Stack .flow}

/-- A class statement binds its name to the class that it makes, and does nothing else but give out
numbers. -/
theorem step_declared (h : m.control = .exec (.class name decls) k) :
    m.step = ⟨({ m.state with store := { m.state.store with
      nextStamp := (m.state.declared name decls).stamp + 1 } } : State).define name
        (.callable (.class (m.state.declared name decls))), .flow .normal k⟩ := by
  obtain ⟨s, c⟩ := m
  obtain rfl : c = _ := h
  obtain ⟨stamp, hstore⟩ := Store.methods_store s.env decls s.store .empty
  simp only [step, exec, State.declared, State.withStore_eq, hstore, Store.freshStamp]

/-- A class statement makes nothing but its class. -/
theorem holds_declared (h : m.control = .exec (.class name decls) k) {v : Value}
    (hv : m.step.Holds v) :
    m.Holds v ∨ v = .callable (.class (m.state.declared name decls)) := by
  have hs : m.state.store.All fun v =>
      m.Holds v ∨ v = .callable (.class (m.state.declared name decls)) :=
    ⟨fun _ _ _ hv => .inl (.inl (.var hv)), fun _ _ _ hv => .inl (.inl (.field hv))⟩
  rw [step_declared h] at hv
  refine All.holds ⟨(hs.stamp _).setVar _ _ (.inr rfl), fun v hv => .inl (.inr ?_)⟩ hv
  rwa [h]

/-- A class gets a number that was not given out before. -/
theorem stamp_declared (h : m.control = .exec (.class name decls) k) :
    m.state.store.nextStamp ≤ (m.state.declared name decls).stamp ∧
      (m.state.declared name decls).stamp < m.step.state.store.nextStamp := by
  rw [step_declared h]
  exact ⟨(m.state.store.retains_methods m.state.env decls .empty).stamps, Nat.lt_succ_self _⟩

end

end Machine

end Lox
