/-
The receiver in a store. Only the frame that binds a method to an instance is
made with a receiver in it, and nothing else binds that name, so whatever is
written later, each frame has the receiver that it was made with (`Store.Keeps`).
An environment then has the same receiver for good, that of its nearest frame
that has one.
-/
import Lox.Machine.Step

namespace Lox

/-- All frames of the environment have been made. -/
def Env.In (env : Env) (s : Store) : Prop := ∀ f ∈ env.chain, f < s.frames.size

namespace Store

/-- The receiver in an environment. -/
def receiver? (s : Store) (env : Env) : Option Value := s.get? env receiverName

/-- Everything is still there, and no frame has another receiver. -/
structure Keeps (s s' : Store) : Prop where
  frames : s.frames.size ≤ s'.frames.size
  objects : s.objects.size ≤ s'.objects.size
  receiver : ∀ f < s.frames.size, (s'.frame f).get? receiverName = (s.frame f).get? receiverName

variable {s s' : Store} {env : Env}

/-- The nearest frame that has a name gives its value. -/
theorem get?_eq_findSome? (s : Store) (env : Env) (name : String) :
    s.get? env name = env.chain.findSome? fun f => (s.frame f).get? name := by
  unfold get? holder?
  induction env.chain with
  | nil => rfl
  | cons f rest ih =>
    cases hf : (s.frame f).get? name with
    | none =>
      have hc : (s.frame f).contains name = false := by simp [Bindings.contains, hf]
      simpa [List.find?_cons, hc, hf] using ih
    | some v =>
      have hc : (s.frame f).contains name = true := Bindings.contains_of_get? hf
      simp [hc, hf]

/-- A look-up at a distance reads one frame. -/
theorem getAt?_eq_bind (s : Store) (env : Env) (d : Nat) (name : String) :
    s.getAt? env d name = env.chain[d]?.bind fun f => (s.frame f).get? name := by
  rw [getAt?, holderAt?]
  cases env.chain[d]? with
  | none => rfl
  | some f =>
    rw [Option.filter_some, Option.bind_some]
    cases hv : (s.frame f).get? name <;> simp [Bindings.contains, hv]

namespace Keeps

theorem refl (s : Store) : s.Keeps s := ⟨Nat.le_refl _, Nat.le_refl _, fun _ _ => rfl⟩

theorem trans {s'' : Store} (h : s.Keeps s') (h' : s'.Keeps s'') : s.Keeps s'' :=
  ⟨Nat.le_trans h.frames h'.frames, Nat.le_trans h.objects h'.objects, fun f hf =>
    (h'.receiver f (Nat.lt_of_lt_of_le hf h.frames)).trans (h.receiver f hf)⟩

/-- The same frames and objects. -/
theorem of_eq (hf : s'.frames = s.frames) (ho : s'.objects = s.objects) : s.Keeps s' := by
  refine ⟨Nat.le_of_eq (by rw [hf]), Nat.le_of_eq (by rw [ho]), fun f _ => ?_⟩
  simp only [frame, hf]

theorem env_in (h : s.Keeps s') (he : env.In s) : env.In s' := fun f hf =>
  Nat.lt_of_lt_of_le (he f hf) h.frames

/-- An environment has the same receiver as before. -/
theorem receiver? (h : s.Keeps s') (he : env.In s) : s'.receiver? env = s.receiver? env := by
  simp only [Store.receiver?, get?_eq_findSome?]
  unfold Env.In at he
  generalize env.chain = frames at he
  induction frames with
  | nil => rfl
  | cons f rest ih =>
    rw [List.forall_mem_cons] at he
    rw [List.findSome?_cons, List.findSome?_cons, h.receiver f he.1, ih he.2]

end Keeps

/-! ## What the operations keep -/

/-- A write to another name. -/
theorem keeps_setVar (s : Store) (f : FrameId) {name : String} (hn : name ≠ receiverName)
    (v : Value) : s.Keeps (s.setVar f name v) := by
  refine ⟨Nat.le_of_eq (size_setVar s f name v).symm, Nat.le_refl _, fun g _ => ?_⟩
  rw [frame_setVar]
  split
  next h => rw [h.1, Bindings.get?_set, if_neg hn.symm]
  next => rfl

theorem keeps_setField (s : Store) (o : ObjectId) (name : String) (v : Value) :
    s.Keeps (s.setField o name v) :=
  ⟨Nat.le_refl _, Nat.le_of_eq (size_setField s o name v).symm, fun _ _ => rfl⟩

theorem keeps_addFrame (s : Store) (vars : Bindings Value) : s.Keeps (s.addFrame vars).2 := by
  refine ⟨?_, Nat.le_refl _, fun f hf => ?_⟩
  · rw [size_addFrame]
    exact Nat.le_succ _
  · rw [frame_addFrame, if_neg (Nat.ne_of_lt hf)]

theorem keeps_addObject (s : Store) : s.Keeps s.addObject.2 := by
  refine ⟨Nat.le_refl _, ?_, fun _ _ => rfl⟩
  rw [size_addObject]
  exact Nat.le_succ _

/-! ## New environments -/

theorem in_childEnv (he : env.In s) (vars : Bindings Value) :
    (s.childEnv env vars).1.In (s.childEnv env vars).2 := by
  have hsize : (s.childEnv env vars).2.frames.size = s.frames.size + 1 := size_addFrame s vars
  intro f hf
  rw [hsize]
  rcases List.mem_cons.1 hf with rfl | hf
  · exact Nat.lt_succ_self _
  · exact Nat.lt_succ_of_lt (he f hf)

/-- The receiver in a new frame is the one that the frame is made with, or else the one around it. -/
theorem receiver?_childEnv (he : env.In s) (vars : Bindings Value) :
    (s.childEnv env vars).2.receiver? (s.childEnv env vars).1 =
      (vars.get? receiverName).or (s.receiver? env) := by
  have hnew : (s.childEnv env vars).2.frame s.frames.size = vars := by
    rw [show (s.childEnv env vars).2 = (s.addFrame vars).2 from rfl, frame_addFrame, if_pos rfl]
  have houter := (s.keeps_addFrame vars).receiver? he
  rw [receiver?, get?_eq_findSome?] at houter
  rw [receiver?, get?_eq_findSome?,
    show (s.childEnv env vars).1.chain = s.frames.size :: env.chain from rfl, List.findSome?_cons,
    hnew, show (s.childEnv env vars).2 = (s.addFrame vars).2 from rfl, houter]
  cases vars.get? receiverName <;> rfl

/-- A new frame without a receiver has the one around it. -/
theorem receiver?_childEnv_of_none (he : env.In s) {vars : Bindings Value}
    (hv : vars.get? receiverName = none) :
    (s.childEnv env vars).2.receiver? (s.childEnv env vars).1 = s.receiver? env := by
  rw [receiver?_childEnv he, hv, Option.none_or]

theorem keeps_bind (s : Store) (f : Closure) (o : Instance) : s.Keeps (s.bind f o).2 :=
  (s.keeps_addFrame _).trans (.of_eq rfl rfl)

/-- A method that is bound to an instance has a frame of its own, which holds only the receiver. -/
theorem frame_bind (s : Store) (f : Closure) (o : Instance) :
    (s.bind f o).2.frame (s.bind f o).1.env.frame = Bindings.empty.set receiverName (.object o) := by
  rw [show (s.bind f o).2.frame = (s.addFrame _).2.frame from rfl, frame_addFrame]
  exact if_pos rfl

/-- A method that is bound to an instance has it for its receiver, wherever it was declared. -/
theorem receiver?_bound (s : Store) (f : Closure) (o : Instance) :
    (s.bind f o).2.receiver? (s.bind f o).1.env = some (.object o) := by
  rw [receiver?, get?_eq_findSome?, Env.chain, List.findSome?_cons, frame_bind, Bindings.get?_set,
    if_pos rfl]

/-- A method that is bound to an instance has it for its receiver, in a frame of its own. -/
theorem receiver?_bind {f : Closure} (hf : f.env.In s) (o : Instance) :
    (s.bind f o).1.env.In (s.bind f o).2 ∧
      (s.bind f o).2.receiver? (s.bind f o).1.env = some (.object o) ∧
      ((s.bind f o).2.frame (s.bind f o).1.env.frame).get? receiverName = some (.object o) := by
  refine ⟨in_childEnv hf _, s.receiver?_bound f o, ?_⟩
  rw [frame_bind, Bindings.get?_set, if_pos rfl]

/-- At no distance a name is looked up in the frame of the environment alone. -/
theorem getAt?_zero (s : Store) (env : Env) (name : String) :
    s.getAt? env 0 name = (s.frame env.frame).get? name := by
  rw [getAt?_eq_bind]
  rfl

end Store

end Lox
