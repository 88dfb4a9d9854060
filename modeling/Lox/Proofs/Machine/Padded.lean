/-
Stores that differ by empty frames. A `World` says which frame of the second
store stands for which frame of the first one; the frames of the second store
that stand for none hold nothing, so a look-up that comes across one of them
goes on behind it. Values are the same up to such frames in the environments of
functions. This module says what the operations on stores do to two stores that
differ in this way only.
-/
import Lox.Proofs.Machine.Like
import Lox.Proofs.Machine.Origin
import Lox.Proofs.Machine.Receiver

namespace Lox

theorem Bindings.Like.imp {α : Type} {R R' : α → α → Prop} (hR : ∀ a a', R a a' → R' a a')
    {b b' : Bindings α} (h : b.Like R b') : b.Like R' b' :=
  List.Forall₂.imp (fun _ _ hp => ⟨hp.1, hR _ _ hp.2⟩) h

/-! ## Frames -/

/-- Which frames of two stores stand for each other. -/
structure World where
  /-- For each frame of the first store, in order, its frame in the second one. -/
  places : List FrameId
  /-- The frames of the second store that stand for none of the first one. -/
  spare : List FrameId

namespace World

/-- The frame of the second store stands for the frame of the first one. -/
def At (W : World) (f g : FrameId) : Prop := W.places[f]? = some g

/-- What stood for each other before still does. -/
structure Le (W W' : World) : Prop where
  places : W.places <+: W'.places
  spare : W.spare ⊆ W'.spare

/-- The list of frames in the second store has spare frames in between. -/
inductive Padded (W : World) : List FrameId → List FrameId → Prop
  | nil : Padded W [] []
  | place {f g fs gs} : W.At f g → Padded W fs gs → Padded W (f :: fs) (g :: gs)
  | spare {g fs gs} : g ∈ W.spare → Padded W fs gs → Padded W fs (g :: gs)

/-- Stores with the same `n` frames. -/
def same (n : Nat) : World := ⟨List.range n, []⟩

/-- A frame is made in both stores. -/
def addPlace (W : World) (g : FrameId) : World := { W with places := W.places ++ [g] }

/-- A frame is made in the second store only. -/
def addSpare (W : World) (g : FrameId) : World := { W with spare := g :: W.spare }

variable {W W' W'' : World} {f g : FrameId} {fs gs : List FrameId}

theorem Le.refl (W : World) : W.Le W := ⟨List.prefix_rfl, fun _ h => h⟩

theorem Le.trans (h : W.Le W') (h' : W'.Le W'') : W.Le W'' :=
  ⟨h.places.trans h'.places, fun _ hg => h'.spare (h.spare hg)⟩

theorem le_addPlace (W : World) (g : FrameId) : W.Le (W.addPlace g) :=
  ⟨List.prefix_append .., fun _ h => h⟩

theorem le_addSpare (W : World) (g : FrameId) : W.Le (W.addSpare g) :=
  ⟨List.prefix_rfl, fun _ h => List.mem_cons_of_mem _ h⟩

theorem At.mono (h : W.At f g) (hle : W.Le W') : W'.At f g := by
  obtain ⟨more, hmore⟩ := hle.places
  rw [At, ← hmore, List.getElem?_append_left (List.getElem?_eq_some_iff.1 h).1]
  exact h

theorem At.mem (h : W.At f g) : g ∈ W.places := List.mem_of_getElem? h

theorem At.lt (h : W.At f g) : f < W.places.length := (List.getElem?_eq_some_iff.1 h).1

theorem at_same {n : Nat} : (same n).At f g ↔ f < n ∧ g = f := by
  rw [At, same, List.getElem?_eq_some_iff]
  simp [eq_comm]

theorem at_addPlace {new : FrameId} :
    (W.addPlace new).At f g ↔ W.At f g ∨ f = W.places.length ∧ g = new := by
  unfold At addPlace
  rw [List.getElem?_append]
  split
  next h => simp [Nat.ne_of_lt h]
  next h =>
    have hnone : W.places[f]? = none := List.getElem?_eq_none (Nat.le_of_not_lt h)
    rw [hnone, List.getElem?_singleton]
    split <;> grind

theorem Padded.mono (h : Padded W fs gs) (hle : W.Le W') : Padded W' fs gs := by
  induction h with
  | nil => exact .nil
  | place hat _ ih => exact .place (hat.mono hle) ih
  | spare hg _ ih => exact .spare (hle.spare hg) ih

theorem padded_same {n : Nat} (h : ∀ f ∈ fs, f < n) : Padded (same n) fs fs := by
  induction fs with
  | nil => exact .nil
  | cons f rest ih =>
    rw [List.forall_mem_cons] at h
    exact .place (at_same.2 ⟨h.1, rfl⟩) (ih h.2)

end World

/-! ## Values -/

/-- The environment is the same up to spare frames. -/
def Env.Padded (W : World) (env env' : Env) : Prop := W.Padded env.chain env'.chain

/-- In addition, the current frames stand for each other. -/
structure Env.Anchored (W : World) (env env' : Env) : Prop where
  frame : W.At env.frame env'.frame
  outer : W.Padded env.outer env'.outer

/-- The same function, in an environment that is the same up to spare frames around it. -/
structure Closure.Padded (W : World) (f f' : Closure) : Prop where
  stamp : f'.stamp = f.stamp
  decl : f'.decl = f.decl
  isInit : f'.isInit = f.isInit
  env : f.env.Anchored W f'.env

/-- The same class. -/
structure Class.Padded (W : World) (c c' : Class) : Prop where
  stamp : c'.stamp = c.stamp
  name : c'.name = c.name
  methods : c.methods.Like (Closure.Padded W) c'.methods

/-- The same object. -/
structure Instance.Padded (W : World) (o o' : Instance) : Prop where
  id : o'.id = o.id
  cls : o.cls.Padded W o'.cls

/-- The same value, up to spare frames in the environments of functions. -/
inductive Value.Padded (W : World) : Value → Value → Prop
  | nil : Padded W .nil .nil
  | bool (b) : Padded W (.bool b) (.bool b)
  | number (x) : Padded W (.number x) (.number x)
  | string (text) : Padded W (.string text) (.string text)
  | native (f) : Padded W (.callable (.native f)) (.callable (.native f))
  | closure {f f' : Closure} : f.Padded W f' →
    Padded W (.callable (.closure f)) (.callable (.closure f'))
  | class {c c' : Class} : c.Padded W c' → Padded W (.callable (.class c)) (.callable (.class c'))
  | object {o o' : Instance} : o.Padded W o' → Padded W (.object o) (.object o')

/-- The same frame of variables, or the same fields. -/
abbrev Bindings.Padded (W : World) : Bindings Value → Bindings Value → Prop :=
  Bindings.Like (Value.Padded W)

variable {W W' : World}

theorem Env.Anchored.padded {env env' : Env} (h : env.Anchored W env') : env.Padded W env' :=
  .place h.frame h.outer

section

variable (hle : W.Le W')

include hle

theorem Env.Padded.mono {env env' : Env} (h : env.Padded W env') : env.Padded W' env' :=
  World.Padded.mono h hle

theorem Env.Anchored.mono {env env' : Env} (h : env.Anchored W env') : env.Anchored W' env' :=
  ⟨h.frame.mono hle, h.outer.mono hle⟩

theorem Closure.Padded.mono {f f' : Closure} (h : f.Padded W f') : f.Padded W' f' :=
  ⟨h.stamp, h.decl, h.isInit, h.env.mono hle⟩

theorem Class.Padded.mono {c c' : Class} (h : c.Padded W c') : c.Padded W' c' :=
  ⟨h.stamp, h.name, h.methods.imp fun _ _ hf => hf.mono hle⟩

theorem Instance.Padded.mono {o o' : Instance} (h : o.Padded W o') : o.Padded W' o' :=
  ⟨h.id, h.cls.mono hle⟩

theorem Value.Padded.mono {v v' : Value} (h : v.Padded W v') : v.Padded W' v' := by
  cases h with
  | nil => exact .nil
  | bool b => exact .bool b
  | number x => exact .number x
  | string text => exact .string text
  | native f => exact .native f
  | closure h => exact .closure (h.mono hle)
  | «class» h => exact .class (h.mono hle)
  | object h => exact .object (h.mono hle)

theorem Bindings.Padded.mono {b b' : Bindings Value} (h : b.Padded W b') : b.Padded W' b' :=
  Bindings.Like.imp (fun _ _ hv => Value.Padded.mono hle hv) h

end

namespace Class.Padded

variable {c c' : Class}

theorem init? (h : c.Padded W c') : c.init? = none ∧ c'.init? = none ∨
    ∃ f f', c.init? = some f ∧ c'.init? = some f' ∧ f.Padded W f' :=
  h.methods.get? FunctionDecl.initName

theorem arity (h : c.Padded W c') : c'.arity = c.arity := by
  unfold Class.arity
  obtain ⟨hi, hi'⟩ | ⟨f, f', hi, hi', hf⟩ := h.init?
  · rw [hi, hi']
  · simp only [hi, hi', hf.decl]

end Class.Padded

namespace Value.Padded

variable {v v' w w' : Value}

theorem isTruthy (h : v.Padded W v') : v'.isTruthy = v.isTruthy := by
  cases h <;> rfl

theorem text (h : v.Padded W v') : v'.text = v.text := by
  cases h with
  | closure h => exact congrArg (fun d : FunctionDecl => "<fn " ++ d.name.lexeme ++ ">") h.decl
  | «class» h => exact h.name
  | object h => exact congrArg (· ++ " instance") h.cls.name
  | _ => rfl

/-- Only stamps and the numbers of objects count for the equality of callable values and objects. -/
theorem equals (hv : v.Padded W v') (hw : w.Padded W w') : v'.equals w' = v.equals w := by
  cases hv with
  | closure hf =>
    cases hw with
    | closure hg => exact congr_arg₂ (· == ·) hf.stamp hg.stamp
    | _ => rfl
  | «class» hc =>
    cases hw with
    | «class» hd => exact congr_arg₂ (· == ·) hc.stamp hd.stamp
    | _ => rfl
  | object ho =>
    cases hw with
    | object hp => exact congr_arg₂ (· == ·) ho.id hp.id
    | _ => rfl
  | _ => cases hw <;> rfl

theorem of_plain (h : v.Plain) : v.Padded W v := by
  cases v with
  | nil => exact .nil
  | bool b => exact .bool b
  | number x => exact .number x
  | string text => exact .string text
  | callable | object => exact h.elim

/-! ### Operators -/

theorem decides (h : v.Padded W v') (op : Token) : decides op v' = decides op v := by
  unfold Lox.decides
  rw [h.isTruthy]

theorem unaryOperation (h : v.Padded W v') (op : Token) :
    unaryOperation op v' = unaryOperation op v := by
  unfold Lox.unaryOperation
  cases op.kind with
  | symbol s => cases s <;> cases h <;> rfl
  | _ => rfl

theorem binaryOperation (hv : v.Padded W v') (hw : w.Padded W w') (op : Token) :
    binaryOperation op v' w' = binaryOperation op v w := by
  unfold Lox.binaryOperation
  rw [hv.equals hw]
  cases hv <;> cases hw <;> rfl

end Value.Padded

/-! ## Stores -/

/-- The second store holds what the first one holds, and in its spare frames nothing. Objects and
callable values have the same numbers in both. -/
structure Store.Padded (W : World) (s s' : Store) : Prop where
  size : s.frames.size = W.places.length
  made : ∀ g, g < s'.frames.size ↔ g ∈ W.places ∨ g ∈ W.spare
  apart : (W.places ++ W.spare).Nodup
  frames : ∀ f g, W.At f g → (s.frame f).Padded W (s'.frame g)
  spare : ∀ g ∈ W.spare, s'.frame g = .empty
  objects : s'.objects.size = s.objects.size
  fields : ∀ o, (s.fields o).Padded W (s'.fields o)
  stamp : s'.nextStamp = s.nextStamp

namespace Store.Padded

variable {s s' : Store} {env env' : Env} {f g : FrameId} {v v' : Value}

theorem frame_inj (h : s.Padded W s') {f₂ g₂ : FrameId} (hat : W.At f g) (hat₂ : W.At f₂ g₂) :
    g₂ = g ↔ f₂ = f := by
  have hnodup := (List.nodup_append.1 h.apart).1
  constructor
  · rintro rfl
    exact (List.getElem?_inj hat₂.lt hnodup).1 (hat₂.trans hat.symm)
  · rintro rfl
    exact Option.some.inj (hat₂.symm.trans hat)

theorem not_spare (h : s.Padded W s') (hat : W.At f g) : g ∉ W.spare := fun hs =>
  (List.nodup_append.1 h.apart).2.2 g hat.mem g hs rfl

theorem made_left (h : s.Padded W s') (hat : W.At f g) : f < s.frames.size := h.size ▸ hat.lt

theorem made_right (h : s.Padded W s') (hat : W.At f g) : g < s'.frames.size :=
  (h.made g).2 (.inl hat.mem)

/-- The next frame of the second store is none that was made. -/
theorem next_fresh (h : s.Padded W s') :
    s'.frames.size ∉ W.places ∧ s'.frames.size ∉ W.spare :=
  not_or.1 fun hmade => Nat.lt_irrefl _ ((h.made _).2 hmade)

/-! ### Look-ups -/

/-- Spare frames are passed over. -/
theorem holder (h : s.Padded W s') {fs gs : List FrameId} (hc : W.Padded fs gs) (name : String) :
    fs.find? (fun f => (s.frame f).contains name) = none ∧
        gs.find? (fun g => (s'.frame g).contains name) = none ∨
      ∃ f g, fs.find? (fun f => (s.frame f).contains name) = some f ∧
        gs.find? (fun g => (s'.frame g).contains name) = some g ∧ W.At f g := by
  induction hc with
  | nil => exact .inl ⟨rfl, rfl⟩
  | @place f g _ _ hat _ ih =>
    rw [List.find?_cons, List.find?_cons, (h.frames f g hat).contains name]
    split
    · exact .inr ⟨f, g, rfl, rfl, hat⟩
    · exact ih
  | spare hg _ ih =>
    rw [List.find?_cons, h.spare _ hg]
    exact ih

theorem holder? (h : s.Padded W s') (he : env.Padded W env') (name : String) :
    s.holder? env name = none ∧ s'.holder? env' name = none ∨
      ∃ f g, s.holder? env name = some f ∧ s'.holder? env' name = some g ∧ W.At f g :=
  h.holder he name

theorem get? (h : s.Padded W s') (he : env.Padded W env') (name : String) :
    s.get? env name = none ∧ s'.get? env' name = none ∨
      ∃ v v', s.get? env name = some v ∧ s'.get? env' name = some v' ∧ v.Padded W v' := by
  unfold Store.get?
  obtain ⟨hf, hg⟩ | ⟨f, g, hf, hg, hat⟩ := h.holder? he name
  · rw [hf, hg]
    exact .inl ⟨rfl, rfl⟩
  · rw [hf, hg]
    exact (h.frames f g hat).get? name

/-- What the current frame holds, if that is no spare one. -/
theorem getAt? (h : s.Padded W s') (he : env.Anchored W env') (name : String) :
    s.getAt? env 0 name = none ∧ s'.getAt? env' 0 name = none ∨
      ∃ v v', s.getAt? env 0 name = some v ∧ s'.getAt? env' 0 name = some v' ∧
        v.Padded W v' := by
  rw [getAt?_zero, getAt?_zero]
  exact (h.frames _ _ he.frame).get? name

/-! ### Changes -/

theorem setVar (h : s.Padded W s') (hat : W.At f g) (hv : v.Padded W v') (name : String) :
    (s.setVar f name v).Padded W (s'.setVar g name v') := by
  refine ⟨by simpa using h.size, fun x => by simpa using h.made x, h.apart, fun f₂ g₂ hat₂ => ?_,
    fun x hx => ?_, h.objects, h.fields, h.stamp⟩
  · rw [frame_setVar, frame_setVar]
    simp only [h.frame_inj hat hat₂, h.made_left hat, h.made_right hat, and_true]
    split
    · exact (h.frames f g hat).set hv name
    · exact h.frames f₂ g₂ hat₂
  · have hne : x ≠ g := fun he => h.not_spare hat (he ▸ hx)
    rw [frame_setVar, if_neg fun he => hne he.1]
    exact h.spare x hx

theorem setField (h : s.Padded W s') (o : ObjectId) (hv : v.Padded W v') (name : String) :
    (s.setField o name v).Padded W (s'.setField o name v') := by
  refine ⟨h.size, h.made, h.apart, h.frames, h.spare, by simpa using h.objects, fun p => ?_,
    h.stamp⟩
  rw [fields_setField, fields_setField, h.objects]
  split
  · exact (h.fields o).set hv name
  · exact h.fields p

theorem freshStamp (h : s.Padded W s') : s.freshStamp.2.Padded W s'.freshStamp.2 :=
  ⟨h.size, h.made, h.apart, h.frames, h.spare, h.objects, h.fields, congrArg (· + 1) h.stamp⟩

theorem addObject (h : s.Padded W s') : s.addObject.2.Padded W s'.addObject.2 := by
  refine ⟨h.size, h.made, h.apart, h.frames, h.spare, by simpa using h.objects, fun o => ?_,
    h.stamp⟩
  rw [fields_addObject, fields_addObject, h.objects]
  split
  · exact .empty
  · exact h.fields o

/-- The frames that are made next stand for each other. -/
theorem addFrame (h : s.Padded W s') {vars vars' : Bindings Value} (hv : vars.Padded W vars') :
    (s.addFrame vars).2.Padded (W.addPlace s'.frames.size) (s'.addFrame vars').2 := by
  obtain ⟨hplaces, hspare⟩ := h.next_fresh
  have hle := W.le_addPlace s'.frames.size
  refine ⟨?_, fun g => ?_, ?_, fun f g hat => ?_, fun g hg => ?_, h.objects,
    fun o => (h.fields o).mono hle, h.stamp⟩
  · simp [World.addPlace, h.size]
  · have := h.made g
    simp only [size_addFrame, World.addPlace, List.mem_append, List.mem_singleton]
    grind
  · have := h.apart
    simp only [World.addPlace]
    grind
  · rw [frame_addFrame, frame_addFrame]
    rcases World.at_addPlace.1 hat with hat | ⟨rfl, rfl⟩
    · rw [if_neg (Nat.ne_of_lt (h.made_left hat)), if_neg (Nat.ne_of_lt (h.made_right hat))]
      exact (h.frames f g hat).mono hle
    · rw [if_pos h.size.symm, if_pos rfl]
      exact hv.mono hle
  · have hne : g ≠ s'.frames.size := fun he => hspare (he ▸ hg)
    rw [frame_addFrame, if_neg hne]
    exact h.spare g hg

/-- A frame that is made in the second store only, and holds nothing, is a spare one. -/
theorem addSpare (h : s.Padded W s') :
    s.Padded (W.addSpare s'.frames.size) (s'.addFrame .empty).2 := by
  obtain ⟨hplaces, hspare⟩ := h.next_fresh
  have hle := W.le_addSpare s'.frames.size
  refine ⟨h.size, fun g => ?_, ?_, fun f g hat => ?_, fun g hg => ?_, h.objects,
    fun o => (h.fields o).mono hle, h.stamp⟩
  · have := h.made g
    simp only [size_addFrame, World.addSpare, List.mem_cons]
    grind
  · have := h.apart
    simp only [World.addSpare]
    grind
  · have hat : W.At f g := hat
    rw [frame_addFrame, if_neg (Nat.ne_of_lt (h.made_right hat))]
    exact (h.frames f g hat).mono hle
  · rw [frame_addFrame]
    split
    · rfl
    next hne => exact h.spare g ((List.mem_cons.1 hg).resolve_left hne)

/-- A new environment inside one that is the same up to spare frames. -/
theorem childEnv (h : s.Padded W s') (he : env.Padded W env') {vars vars' : Bindings Value}
    (hv : vars.Padded W vars') :
    ∃ W', W.Le W' ∧ (s.childEnv env vars).1.Anchored W' (s'.childEnv env' vars').1 ∧
      (s.childEnv env vars).2.Padded W' (s'.childEnv env' vars').2 := by
  have hle := W.le_addPlace s'.frames.size
  exact ⟨_, hle, ⟨World.at_addPlace.2 (.inr ⟨h.size, rfl⟩), World.Padded.mono he hle⟩,
    h.addFrame hv⟩

theorem closure (h : s.Padded W s') (he : env.Anchored W env') (decl : FunctionDecl)
    (isInit : Bool) :
    (s.closure decl env isInit).1.Padded W (s'.closure decl env' isInit).1 ∧
      (s.closure decl env isInit).2.Padded W (s'.closure decl env' isInit).2 :=
  ⟨⟨h.stamp, rfl, rfl, he⟩, h.freshStamp⟩

theorem methods (h : s.Padded W s') (he : env.Anchored W env') (decls : List FunctionDecl)
    {found found' : Bindings Closure} (hf : found.Like (Closure.Padded W) found') :
    (s.methods env decls found).1.Like (Closure.Padded W) (s'.methods env' decls found').1 ∧
      (s.methods env decls found).2.Padded W (s'.methods env' decls found').2 := by
  induction decls generalizing s s' found found' with
  | nil => exact ⟨hf, h⟩
  | cons decl rest ih =>
    have hnew := h.closure he decl decl.isInit
    rw [Store.methods, Store.methods]
    exact ih hnew.2 (hf.set hnew.1 _)

/-- A function gets a receiver in a frame of its own. -/
theorem bind (h : s.Padded W s') {f f' : Closure} (hf : f.Padded W f') {o o' : Instance}
    (ho : o.Padded W o') :
    ∃ W', W.Le W' ∧ (s.bind f o).1.Padded W' (s'.bind f' o').1 ∧
      (s.bind f o).2.Padded W' (s'.bind f' o').2 := by
  have hvars : (Bindings.empty.set receiverName (.object o)).Padded W
      (Bindings.empty.set receiverName (.object o')) := Bindings.Like.empty.set (.object ho) _
  obtain ⟨W', hle, henv, hstore⟩ := h.childEnv hf.env.padded hvars
  exact ⟨W', hle, ⟨hstore.stamp, hf.decl, hf.isInit, henv⟩, hstore.freshStamp⟩

end Store.Padded

end Lox
