/-
What reading a property gives. Of all that happens in a session only the completed
assignments to the property of the instance and the class statement that made its
class matter: the answer is the value that was assigned last, or else a new method of
the last declaration of the name, bound to the instance, or else an error
(`Course.properties`).
-/
import Lox.Proofs.Machine.Setting
import Lox.Proofs.Session.Names
import Lox.Proofs.Session.Notes

namespace Lox

namespace Phase

/-- The step that reads a property of an instance in this phase, for what waits for its value. -/
def read (p : Phase) (o : Instance) (name : Token) (k : Stack .value) : Machine :=
  Machine.step ⟨p.state, .value (.object o) (.push (.property name) k)⟩

/-- The value differs from all that exist in this phase or have existed before. -/
def New (readings : Nat → Int64) (p : Phase) (v : Value) : Prop :=
  ∀ (q : Phase) (w : Value), q.Reached readings → q.Leads p → q.Holds w → w.equals v = false

/-- Reading the property gives a function that is made from the declaration and bound to the
instance, in a new frame inside the environment, and changes nothing else. -/
structure Binds (readings : Nat → Int64) (p : Phase) (o : Instance) (name : Token)
    (decl : FunctionDecl) (env : Env) (f : Closure) (store : Store) : Prop where
  read : ∀ k, p.read o name k = ⟨{ p.state with store }, .value (.callable (.closure f)) k⟩
  new : New readings p (.callable (.closure f))
  made : f.decl = decl ∧ f.isInit = decl.isInit
  around : f.env = ⟨p.store.frames.size, env.chain⟩
  receiver : store.receiver? f.env = some (.object o)
  result : store = { (p.store.addFrame (Bindings.empty.set receiverName (.object o))).2 with
    nextStamp := p.store.nextStamp + 1 }

/-- What reading a property of the instance gives, when this was assigned to it last, and this is
the last declaration of the name in the class statement: the assigned value, or else a new method
that is bound to the instance, or else an error. -/
def Answers (readings : Nat → Int64) (p : Phase) (o : Instance) (name : Token) (env : Env) :
    Option Value → Option FunctionDecl → Prop
  | some v, _ => ∀ k, p.read o name k = ⟨p.state, .value v k⟩
  | none, some decl => ∃ f store, Binds readings p o name decl env f store
  | none, none => ∀ k, p.read o name k = ⟨p.state, .raise ⟨name, .undefinedProperty name.lexeme⟩ k⟩

variable {readings : Nat → Int64} {p q : Phase} {s : Session} {m : Machine} {notes : List Note}

/-! ## Readings -/

theorem state_store (p : Phase) : p.state.store = p.store := by
  cases p <;> rfl

/-- A function with the next number is new. -/
theorem new_closure {f : Closure} (hf : f.stamp = p.store.nextStamp) :
    New readings p (.callable (.closure f)) := by
  intro q w hq hl hw
  cases w with
  | callable g =>
    cases g with
    | native | «class» => rfl
    | closure g =>
      obtain ⟨notes, hcourse⟩ := hq.course
      have hlt : g.stamp < f.stamp :=
        hf ▸ Nat.lt_of_lt_of_le (hcourse.recorded.functions g hw) hl.stamps
      exact beq_eq_false_iff_ne.2 (Nat.ne_of_lt hlt)
  | _ => rfl

/-- A method that is read as a property is bound to the instance. -/
theorem binds_of_method {o : Instance} {name : Token} {decl : FunctionDecl} {env : Env}
    {stamp : Nat} (hnone : (p.store.fields o.id).get? name.lexeme = none)
    (hf : o.cls.methods.get? name.lexeme = some ⟨stamp, decl, env, decl.isInit⟩) :
    ∃ f store, Binds readings p o name decl env f store := by
  rw [← state_store] at hnone
  refine ⟨_, _, fun k => Machine.property_of_method hnone hf,
    new_closure (congrArg Store.nextStamp p.state_store), ⟨rfl, rfl⟩, ?_,
    Store.receiver?_bound _ _ o, ?_⟩
  · rw [← state_store]
    rfl
  · rw [← state_store]
    rfl

theorem answers {o : Instance} {decls : List FunctionDecl} {env : Env} (h : p.Recorded notes)
    (hmade : o.cls.MadeOf decls env) (name : Token) :
    p.Answers readings o name env (lastWrite o.id name.lexeme notes)
      (lastNamed decls name.lexeme) := by
  have hfield := h.fields o.id name.lexeme
  have hmethod := hmade name.lexeme
  cases hw : lastWrite o.id name.lexeme notes with
  | some v =>
    rw [hw, ← state_store] at hfield
    intro k
    simp only [read, Machine.step, Machine.serveValue, Machine.property, hfield]
  | none =>
    rw [hw] at hfield
    cases hl : lastNamed decls name.lexeme with
    | some decl =>
      rw [hl] at hmethod
      obtain ⟨stamp, hmethod⟩ := hmethod
      exact binds_of_method hfield hmethod
    | none =>
      rw [hl] at hmethod
      rw [← state_store] at hfield
      intro k
      simp only [read, Machine.step, Machine.serveValue, Machine.property, hfield, hmethod]

/-! ## Assignments -/

/-- What waits for a part of an assignment has waited since the assignment came to this part. -/
theorem Reached.started (h : (Phase.busy s m).Reached readings) {x : Setting}
    (hx : x ∈ m.control.settings) :
    ∃ m₀ n, (Phase.busy s m₀).Reached readings ∧ m₀.control.Starts x ∧ m = m₀.step.run n ∧
      ∀ i ≤ n, (m₀.step.run i).control.Over x.stack := by
  generalize hp : Phase.busy s m = p at h
  induction h generalizing m with
  | refl => cases hp
  | tail hr hn ih =>
    cases hn with
    | rejected | ended => cases hp
    | start hl =>
      cases hp
      obtain ⟨-, -, -, rfl⟩ := Session.load_ready hl
      cases hx
    | step =>
      cases hp
      rcases Machine.settings_step hx with hx' | hstarts
      · obtain ⟨m₀, n, hm₀, hstarts, rfl, hover⟩ := ih hx' rfl
        refine ⟨m₀, n + 1, hm₀, hstarts, (Machine.run_last ..).symm, fun i hi => ?_⟩
        rcases Nat.le_succ_iff.1 hi with hi | rfl
        · exact hover i hi
        · rw [Machine.run_last]
          exact Machine.over_of_settings (hover n (Nat.le_refl n)) hx
      · refine ⟨_, 0, hr, hstarts, rfl, fun i hi => ?_⟩
        obtain rfl := Nat.le_zero.1 hi
        exact Machine.over_of_starts hstarts

/-- A field is written at the end of an assignment only. -/
theorem Reached.sets (h : (Phase.busy s m).Reached readings) {o : Instance} {name : Token}
    {v : Value} {k : Stack .value} (hc : m.control = .value v (.push (.fieldValue o name) k)) :
    ∃ m₀ n, (Phase.busy s m₀).Reached readings ∧ m = m₀.run n ∧ m₀.Sets n o name v k := by
  obtain ⟨m₁, j, hm₁, hstarts, rfl, hvalue⟩ := h.started (x := .value o name k)
    (by rw [hc]; exact List.mem_cons_self ..)
  -- The object of the assignment has been evaluated before.
  obtain ⟨e, hobject⟩ := hstarts.served
  obtain ⟨m₀, i, hm₀, hstarts₀, rfl, hover⟩ := hm₁.started (x := .object name e k)
    (by rw [hobject]; exact List.mem_cons_self ..)
  obtain ⟨object, hstart⟩ := hstarts₀.eval
  have hrun (l : Nat) : m₀.step.run (i + 1 + l) = (m₀.step.run i).step.run l := by
    rw [Machine.run_add, Machine.run_last]
  refine ⟨m₀, i + 1 + j + 1, hm₀, ?_, ⟨⟨object, e, hstart, i + 1, by omega, ?_⟩, ?_, ?_⟩⟩
  · rw [Machine.run_succ, hrun]
  · rw [Machine.run_succ]
    exact hobject
  · rw [Machine.run_succ, hrun]
    exact hc
  · refine ⟨fun l hl => ?_, ?_⟩
    · rcases Nat.lt_or_ge i l with hlt | hle
      · obtain ⟨l, rfl⟩ := Nat.exists_eq_add_of_le hlt
        rw [hrun]
        exact ⟨_, _, hvalue l (by omega)⟩
      · exact ⟨_, _, hover l hle⟩
    · rw [Machine.run_last, hrun, Machine.step_set hc]
      exact Control.not_beyond_value v k

/-- An assignment that is complete is noted. -/
theorem Course.sets (h : Course readings (.busy s m) notes) {n : Nat} {o : Instance} {name : Token}
    {v : Value} {k : Stack .value} (hm : m.Sets n o name v k) :
    Course readings (.busy s (m.run (n + 1))) (.wrote o name.lexeme v :: (m.notes n ++ notes)) := by
  have hrun := h.run (n + 1)
  rwa [Machine.notes, Machine.note?_of_write hm.write] at hrun

/-- What is noted as written was written at the end of an assignment. -/
theorem Course.wrote (h : Course readings p notes) {o : Instance} {name : String} {v : Value}
    (hw : .wrote o name v ∈ notes) : ∃ s m n token k, (Phase.busy s m).Reached readings ∧
      (Phase.busy s (m.run (n + 1))).Leads p ∧ token.lexeme = name ∧ m.Sets n o token v k := by
  induction h with
  | start => cases hw
  | @next p q notes hp hn ih =>
    rcases List.mem_append.1 hw with hnew | hold
    · rcases hn.step_or_idle with ⟨s, m, rfl, rfl⟩ | ⟨-, hdone, -⟩
      · obtain ⟨token, k, hname, hc⟩ := Machine.wrote_of_note? (Option.mem_toList.1 hnew)
        obtain ⟨m₀, n, hm₀, rfl, hsets⟩ := hp.reached.sets hc
        refine ⟨s, m₀, n, token, k, hm₀, ?_, hname, hsets⟩
        rw [Machine.run_last]
        exact .refl
      · rw [note?_of_isDone hdone] at hnew
        cases hnew
    · obtain ⟨s, m, n, token, k, hm, hl, hname, hsets⟩ := ih hold
      exact ⟨s, m, n, token, k, hm, hl.tail hn, hname, hsets⟩

/-! ## Properties -/

/-- In the course of a session, for each instance that exists at some moment: from then on no other
instance has its number, and one class statement has made its class. At this moment and at each
later one, reading a property gives what was assigned to it last, or else a new method of the last
declaration of this name in that statement, bound to the instance, or else an error, and only an
assignment to this property of this instance changes which of these it is. What was assigned was
assigned by an assignment that was evaluated from its start. An assignment that is over is noted
last, or it has failed, and then it has not written the field. -/
theorem Course.properties (h : Course readings p notes) :
    (∀ o, p.Holds (.object o) →
      (∀ q o', p.Leads q → q.Holds (.object o') → o'.id = o.id → o' = o) ∧
      ∃ decls env, .declared o.cls decls env ∈ notes ∧
        (∀ decls' env', .declared o.cls decls' env' ∈ notes → decls' = decls ∧ env' = env) ∧
        ∀ q more name, Course readings q (more ++ notes) →
          q.Answers readings o name env (lastWrite o.id name.lexeme (more ++ notes))
            (lastNamed decls name.lexeme) ∧
          ((∀ o' v, .wrote o' name.lexeme v ∈ more → o'.id ≠ o.id) →
            lastWrite o.id name.lexeme (more ++ notes) = lastWrite o.id name.lexeme notes)) ∧
    (∀ o name v, .wrote o name v ∈ notes → ∃ s m n token k, (Phase.busy s m).Reached readings ∧
      (Phase.busy s (m.run (n + 1))).Leads p ∧ token.lexeme = name ∧ m.Sets n o token v k) ∧
    ∀ s m object name e k n, p = .busy s m → m.control = .eval (.set object name e) k →
      m.step.Returns k n →
      (∃ o v, m.Sets n o name v k ∧
        Course readings (.busy s (m.run (n + 1)))
          (.wrote o name.lexeme v :: (m.notes n ++ notes))) ∨
      ∃ error, (m.run (n + 1)).control = .raise error k ∧
        ∀ i ≤ n, ∀ o token v, (m.run i).control ≠ .value v (.push (.fieldValue o token) k) := by
  have hrecorded := h.recorded
  refine ⟨fun o ho => ⟨fun q o' hl ho' hid => ?_, ?_⟩, fun o name v => h.wrote, ?_⟩
  · have hlt : o'.id < p.store.objects.size := hid ▸ h.reached.object ho
    exact hrecorded.objects o o' ho (hl.holds_object hlt h.reached ho') hid
  · obtain ⟨decls, env, hdeclared⟩ := hrecorded.classes _ o.cls ho rfl
    refine ⟨decls, env, hdeclared,
      fun decls' env' => hrecorded.unique o.cls decls env decls' env' hdeclared,
      fun q more name hq => ⟨answers hq.recorded ?_ name, lastWrite_append⟩⟩
    exact (hrecorded.declared _ _ _ hdeclared).2
  · rintro s m object name e k n rfl hc hreturns
    obtain ⟨o, v, hsets⟩ | ⟨error, hfails⟩ := hreturns.set_cases hc
    · exact .inl ⟨o, v, hsets, h.sets hsets⟩
    · exact .inr ⟨error, hfails, fun i hi => hreturns.not_set hc hfails hi⟩

/-- `class A { m() {} } A().f = nil;`, where the assignment is about to be evaluated after four
steps, `A` after six, and the field to be written after ten. -/
def assignedNil : List UInt8 := Utf8.encode "class A \x7b m() \x7b\x7d \x7d A().f = nil;"

/-- The declaration of `m`. -/
def assignedMethod : FunctionDecl := .mk (.identifier "m" 1) [] []

/-- The class `A`. -/
def assignedClass : Class := ⟨2, "A", Bindings.empty.set "m" ⟨1, assignedMethod, globals, false⟩⟩

/-- What waits for the assignment. -/
def assignedRest : Stack .value := .push .discard (.push (.program []) .bottom)

theorem program_assignedNil : ((Session.initial fun _ => 0).chunk assignedNil).program =
    [.class (.identifier "A" 1) [assignedMethod],
      .expression (.set (.call (.variable 0 (.identifier "A" 1)) ⟨.symbol .rightParen, ")", 1⟩ [])
        (.identifier "f" 1) (.literal .nil))] := by
  with_unfolding_all rfl

theorem called_assignedNil (n : Nat) : Session.onlyChunk assignedNil (7 + n) = Machine.run n
    ⟨(Session.onlyChunk assignedNil 6).state, .value (.callable (.class assignedClass))
      (.push (.callee ⟨.symbol .rightParen, ")", 1⟩ [])
        (.push (.fieldObject (.identifier "f" 1) (.literal .nil)) assignedRest))⟩ := by
  have hcontrol : (Session.onlyChunk assignedNil 6).control =
      .eval (.variable 0 (.identifier "A" 1)) (.push (.callee ⟨.symbol .rightParen, ")", 1⟩ [])
        (.push (.fieldObject (.identifier "f" 1) (.literal .nil)) assignedRest)) := by
    with_unfolding_all rfl
  have hdistances : ((Session.initial fun _ => 0).chunk assignedNil).resolution.distances =
      (∅ : Std.HashMap NodeId Nat) := by
    rw [Chunk.resolution, program_assignedNil]
    with_unfolding_all rfl
  have hlook : (Session.onlyChunk assignedNil 6).state.lookUp 0 (.identifier "A" 1) =
      .ok (.callable (.class assignedClass)) := by
    refine Session.lookUp_onlyChunk ?_ (by with_unfolding_all rfl)
    rw [hdistances]
    simp
  exact Session.onlyChunk_succ hcontrol hlook n

theorem control_assignedNil :
    (Session.onlyChunk assignedNil 4).control = .eval (.set (.call (.variable 0 (.identifier "A" 1))
      ⟨.symbol .rightParen, ")", 1⟩ []) (.identifier "f" 1) (.literal .nil)) assignedRest ∧
    (Session.onlyChunk assignedNil 10).control =
      .value .nil (.push (.fieldValue ⟨0, assignedClass⟩ (.identifier "f" 1)) assignedRest) ∧
    (Session.onlyChunk assignedNil 11).control = .value .nil assignedRest := by
  rw [called_assignedNil 3, called_assignedNil 4]
  exact ⟨by with_unfolding_all rfl, by with_unfolding_all rfl, by with_unfolding_all rfl⟩

theorem run_assignedNil (n k : Nat) :
    (Session.onlyChunk assignedNil n).run k = Session.onlyChunk assignedNil (n + k) :=
  (Machine.run_add n k _).symm

/-- The session with the distances of the chunk. -/
def assignedSession : Session := ((Session.initial fun _ => 0).load assignedNil).1

theorem later_assignedNil {n k : Nat} {notes more : List Note}
    (h : Course (fun _ => 0) (.busy assignedSession (Session.onlyChunk assignedNil n)) notes)
    (hk : (Session.onlyChunk assignedNil n).notes k = more) :
    Course (fun _ => 0) (.busy assignedSession (Session.onlyChunk assignedNil (n + k)))
      (more ++ notes) := by
  rw [← run_assignedNil, ← hk]
  exact h.run k

/-- Up to the write only the class statement is noted. -/
theorem course_assignedNil :
    Course (fun _ => 0) (.busy assignedSession (Session.onlyChunk assignedNil 4))
      [.declared assignedClass [assignedMethod] globals] ∧
    Course (fun _ => 0) (.busy assignedSession (Session.onlyChunk assignedNil 10))
      [.declared assignedClass [assignedMethod] globals] := by
  have he : (Reading.ofSource assignedNil 0).errors = [] := by with_unfolding_all rfl
  have hclean : ((Session.initial fun _ => 0).chunk assignedNil).resolution.Clean := by
    rw [Chunk.resolution, program_assignedNil]
    with_unfolding_all rfl
  have hstart : (Phase.idle (.initial fun _ => 0)).Next
      (.busy assignedSession (Session.onlyChunk assignedNil 0)) :=
    .start (Session.load_of_clean he hclean)
  have hdeclared : (Session.onlyChunk assignedNil 0).notes 4 =
      [.declared assignedClass [assignedMethod] globals] := by with_unfolding_all rfl
  have hnone : (Session.onlyChunk assignedNil 4).notes 3 = [] := by with_unfolding_all rfl
  have hnone' : (Session.onlyChunk assignedNil 7).notes 3 = [] := by
    rw [called_assignedNil 0]
    with_unfolding_all rfl
  have h4 := later_assignedNil (Course.start.next hstart) hdeclared
  exact ⟨h4, later_assignedNil (later_assignedNil h4 hnone) hnone'⟩

/-- The method is read before the write, and the value behind it. -/
theorem properties_assignedNil : ∃ o f store n,
    (Phase.busy assignedSession (Session.onlyChunk assignedNil 10)).Holds (.object o) ∧
    Binds (fun _ => 0) (.busy assignedSession (Session.onlyChunk assignedNil 10)) o
      (.identifier "m" 1) assignedMethod globals f store ∧
    (∀ k, (Phase.busy assignedSession (Session.onlyChunk assignedNil 11)).read o
      (.identifier "f" 1) k = ⟨(Session.onlyChunk assignedNil 11).state, .value .nil k⟩) ∧
    (Session.onlyChunk assignedNil 4).step.Returns assignedRest n ∧
    ((∃ o v, (Session.onlyChunk assignedNil 4).Sets n o (.identifier "f" 1) v assignedRest) ∨
      ∃ error, ((Session.onlyChunk assignedNil 4).run (n + 1)).control =
        .raise error assignedRest) := by
  obtain ⟨h4, h10⟩ := course_assignedNil
  obtain ⟨hstart, hwrite, hlast⟩ := control_assignedNil
  have ho : (Phase.busy assignedSession (Session.onlyChunk assignedNil 10)).Holds
      (.object ⟨0, assignedClass⟩) := by
    refine .inr ?_
    rw [hwrite]
    exact List.mem_cons_of_mem _ (List.mem_cons_self ..)
  have hnoted : (Session.onlyChunk assignedNil 10).notes 1 =
      [.wrote ⟨0, assignedClass⟩ "f" .nil] := by
    rw [Machine.notes, Machine.run_zero, Machine.note?_of_write hwrite]
    rfl
  have h11 := later_assignedNil h10 hnoted
  obtain ⟨-, decls, env, -, hunique, hanswers⟩ := h10.properties.1 _ ho
  obtain ⟨rfl, rfl⟩ := hunique [assignedMethod] globals (List.mem_singleton.2 rfl)
  obtain ⟨f, store, hbinds⟩ := (hanswers _ [] (.identifier "m" 1) h10).1
  have hread := (hanswers _ [_] (.identifier "f" 1) h11).1
  have hover : ¬ ((Session.onlyChunk assignedNil 4).step.run 6).control.Beyond assignedRest := by
    rw [← Machine.run_succ, run_assignedNil, hlast]
    exact Control.not_beyond_value _ _
  obtain ⟨n, -, hn⟩ := Machine.exists_returns hover
  refine ⟨_, f, store, n, ho, hbinds, hread, hn, ?_⟩
  obtain ⟨o, v, hsets, -⟩ | ⟨error, hfails, -⟩ :=
    h4.properties.2.2 _ _ _ _ _ _ n rfl hstart hn
  · exact .inl ⟨o, v, hsets⟩
  · exact .inr ⟨error, hfails⟩

end Phase

end Lox
