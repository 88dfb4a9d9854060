/-
The store: frames of variables and the fields of objects, each under the number
that it got when it was made. A frame never changes its place in an environment,
so an environment is the list of the frames on the way out. A look-up by name
takes the nearest frame that has the name; a look-up by distance takes exactly
one frame.
-/
import Lox.Value.Basic

namespace Lox

/-- Everything that can change while a program runs. -/
structure Store where
  frames : Array (Bindings Value)
  /-- The fields of each object. -/
  objects : Array (Bindings Value)
  /-- The number for the next callable value. -/
  nextStamp : Nat

namespace Store

/-- No frames, no objects. -/
def empty : Store := ⟨#[], #[], 0⟩

/-- The variables of a frame. -/
def frame (s : Store) (f : FrameId) : Bindings Value := s.frames.getD f .empty

/-- The fields of an object. -/
def fields (s : Store) (o : ObjectId) : Bindings Value := s.objects.getD o .empty

/-- Makes a frame with these variables. -/
def addFrame (s : Store) (vars : Bindings Value) : FrameId × Store :=
  (s.frames.size, { s with frames := s.frames.push vars })

/-- Makes an environment of a single new frame. -/
def newEnv (s : Store) : Env × Store :=
  let (f, s) := s.addFrame .empty
  (⟨f, []⟩, s)

/-- Makes a new frame with these variables inside an environment. -/
def childEnv (s : Store) (env : Env) (vars : Bindings Value) : Env × Store :=
  let (f, s) := s.addFrame vars
  (⟨f, env.chain⟩, s)

/-- Makes an object without fields. -/
def addObject (s : Store) : ObjectId × Store :=
  (s.objects.size, { s with objects := s.objects.push .empty })

/-- A number that no callable value has yet. -/
def freshStamp (s : Store) : Nat × Store :=
  (s.nextStamp, { s with nextStamp := s.nextStamp + 1 })

/-- Binds a name in a frame. -/
def setVar (s : Store) (f : FrameId) (name : String) (v : Value) : Store :=
  { s with frames := s.frames.modify f fun vars => vars.set name v }

/-- Writes a field of an object. -/
def setField (s : Store) (o : ObjectId) (name : String) (v : Value) : Store :=
  { s with objects := s.objects.modify o fun fields => fields.set name v }

/-- Binds a name in the current frame, whether or not it was bound there. -/
def define (s : Store) (env : Env) (name : String) (v : Value) : Store :=
  s.setVar env.frame name v

/-- The nearest frame that has a name. -/
def holder? (s : Store) (env : Env) (name : String) : Option FrameId :=
  env.chain.find? fun f => (s.frame f).contains name

/-- The value of a name in the nearest frame that has it. -/
def get? (s : Store) (env : Env) (name : String) : Option Value := do
  (s.frame (← s.holder? env name)).get? name

/-- Writes a name in the nearest frame that has it. -/
def assign? (s : Store) (env : Env) (name : String) (v : Value) : Option Store := do
  return s.setVar (← s.holder? env name) name v

/-- The frame at a distance, if it has the name. -/
def holderAt? (s : Store) (env : Env) (distance : Nat) (name : String) : Option FrameId :=
  env.chain[distance]?.filter fun f => (s.frame f).contains name

/-- The value of a name in the frame at a distance. -/
def getAt? (s : Store) (env : Env) (distance : Nat) (name : String) : Option Value := do
  (s.frame (← s.holderAt? env distance name)).get? name

/-- Writes a name in the frame at a distance, which has to have it. -/
def assignAt? (s : Store) (env : Env) (distance : Nat) (name : String) (v : Value) :
    Option Store := do
  return s.setVar (← s.holderAt? env distance name) name v

/-! ## What the operations leave of the frames and the fields -/

theorem frame_addFrame (s : Store) (vars : Bindings Value) (f : FrameId) :
    (s.addFrame vars).2.frame f = if f = s.frames.size then vars else s.frame f := by
  simp only [addFrame, frame, Array.getD_eq_getD_getElem?, Array.getElem?_push]
  split <;> rfl

@[simp] theorem fields_addFrame (s : Store) (vars : Bindings Value) (o : ObjectId) :
    (s.addFrame vars).2.fields o = s.fields o := rfl

@[simp] theorem size_addFrame (s : Store) (vars : Bindings Value) :
    (s.addFrame vars).2.frames.size = s.frames.size + 1 := by simp [addFrame]

theorem frame_setVar (s : Store) (f : FrameId) (name : String) (v : Value) (g : FrameId) :
    (s.setVar f name v).frame g =
      if g = f ∧ f < s.frames.size then (s.frame f).set name v else s.frame g := by
  simp only [setVar, frame, Array.getD_eq_getD_getElem?, Array.getElem?_modify]
  by_cases hg : g = f
  · subst hg
    by_cases hlt : g < s.frames.size
    · simp [hlt]
    · simp [hlt]
  · simp [hg, Ne.symm hg]

@[simp] theorem fields_setVar (s : Store) (f : FrameId) (name : String) (v : Value) (o : ObjectId) :
    (s.setVar f name v).fields o = s.fields o := rfl

@[simp] theorem size_setVar (s : Store) (f : FrameId) (name : String) (v : Value) :
    (s.setVar f name v).frames.size = s.frames.size := by simp [setVar]

@[simp] theorem frame_setField (s : Store) (o : ObjectId) (name : String) (v : Value) (f : FrameId) :
    (s.setField o name v).frame f = s.frame f := rfl

theorem fields_setField (s : Store) (o : ObjectId) (name : String) (v : Value) (p : ObjectId) :
    (s.setField o name v).fields p =
      if p = o ∧ o < s.objects.size then (s.fields o).set name v else s.fields p := by
  simp only [setField, fields, Array.getD_eq_getD_getElem?, Array.getElem?_modify]
  by_cases hp : p = o
  · subst hp
    by_cases hlt : p < s.objects.size
    · simp [hlt]
    · simp [hlt]
  · simp [hp, Ne.symm hp]

@[simp] theorem size_setField (s : Store) (o : ObjectId) (name : String) (v : Value) :
    (s.setField o name v).objects.size = s.objects.size := by simp [setField]

@[simp] theorem frame_addObject (s : Store) (f : FrameId) : s.addObject.2.frame f = s.frame f := rfl

theorem fields_addObject (s : Store) (o : ObjectId) :
    s.addObject.2.fields o = if o = s.objects.size then .empty else s.fields o := by
  simp only [addObject, fields, Array.getD_eq_getD_getElem?, Array.getElem?_push]
  split <;> rfl

@[simp] theorem size_addObject (s : Store) : s.addObject.2.objects.size = s.objects.size + 1 := by
  simp [addObject]

@[simp] theorem frame_freshStamp (s : Store) (f : FrameId) : s.freshStamp.2.frame f = s.frame f :=
  rfl

@[simp] theorem fields_freshStamp (s : Store) (o : ObjectId) :
    s.freshStamp.2.fields o = s.fields o := rfl

/-- A frame that is not there holds nothing. -/
theorem frame_of_size_le {s : Store} {f : FrameId} (h : s.frames.size ≤ f) : s.frame f = .empty := by
  simp [frame, Nat.not_lt.2 h]

end Store

end Lox
