/-
Machines side by side. A `Comparison` says which trees may stand for each other
and which frames and objects are compared. Two machines are alike if they are
about to do the same with values that are alike, their stores hold like values
wherever they are compared, and no value that they have at hand leads out of
what is compared. This module says what the operations on stores and values do
to stores and values that are alike.
-/
import Lox.Proofs.Tree.Like
import Lox.Machine.Step
import Mathlib.Data.List.Find

namespace Lox

/-! ## Cells -/

/-- What can change in a store: a frame or an object. -/
inductive Cell
  | frame (f : FrameId)
  | object (o : ObjectId)
deriving DecidableEq

namespace Store

/-- What a cell holds. -/
def contents (s : Store) : Cell → Bindings Value
  | .frame f => s.frame f
  | .object o => s.fields o

/-- The cell has been made. -/
def Has (s : Store) : Cell → Prop
  | .frame f => f < s.frames.size
  | .object o => o < s.objects.size

variable {s : Store}

theorem contents_setVar (s : Store) (f : FrameId) (name : String) (v : Value) (c : Cell) :
    (s.setVar f name v).contents c =
      if c = .frame f ∧ f < s.frames.size then (s.contents c).set name v else s.contents c := by
  cases c with
  | frame g =>
    simp only [contents, frame_setVar, Cell.frame.injEq]
    by_cases hg : g = f
    · simp only [hg]
    · simp only [hg, false_and, if_false]
  | object o => simp [contents]

theorem contents_setField (s : Store) (o : ObjectId) (name : String) (v : Value) (c : Cell) :
    (s.setField o name v).contents c =
      if c = .object o ∧ o < s.objects.size then (s.contents c).set name v else s.contents c := by
  cases c with
  | frame g => simp [contents]
  | object p =>
    simp only [contents, fields_setField, Cell.object.injEq]
    by_cases hp : p = o
    · simp only [hp]
    · simp only [hp, false_and, if_false]

theorem contents_addFrame (s : Store) (vars : Bindings Value) (c : Cell) :
    (s.addFrame vars).2.contents c = if c = .frame s.frames.size then vars else s.contents c := by
  cases c with
  | frame f => simp [contents, frame_addFrame]
  | object o => simp [contents]

theorem contents_addObject (s : Store) (c : Cell) :
    s.addObject.2.contents c = if c = .object s.objects.size then .empty else s.contents c := by
  cases c with
  | frame f => simp [contents]
  | object o => simp [contents, fields_addObject]

theorem has_setVar {f : FrameId} {name : String} {v : Value} {c : Cell} (h : s.Has c) :
    (s.setVar f name v).Has c := by
  cases c with
  | frame g => exact Nat.lt_of_lt_of_eq h (size_setVar s f name v).symm
  | object o => exact h

theorem has_setField {o : ObjectId} {name : String} {v : Value} {c : Cell} (h : s.Has c) :
    (s.setField o name v).Has c := by
  cases c with
  | frame f => exact h
  | object p => exact Nat.lt_of_lt_of_eq h (size_setField s o name v).symm

theorem has_addFrame {vars : Bindings Value} {c : Cell} (h : s.Has c) :
    (s.addFrame vars).2.Has c := by
  cases c with
  | frame f => exact Nat.lt_of_lt_of_le h (by simp)
  | object o => exact h

theorem has_addObject {c : Cell} (h : s.Has c) : s.addObject.2.Has c := by
  cases c with
  | frame f => exact h
  | object o => exact Nat.lt_of_lt_of_le h (by simp)

/-- A cell that has not been made holds nothing. -/
theorem contents_of_not_has {c : Cell} (h : ¬ s.Has c) : s.contents c = .empty := by
  cases c with
  | frame f => exact frame_of_size_le (Nat.le_of_not_lt h)
  | object o =>
    have : s.objects.size ≤ o := Nat.le_of_not_lt h
    simp [contents, fields, Nat.not_lt.2 this]

end Store

/-! ## Bindings -/

namespace Bindings

variable {α : Type} {R : α → α → Prop}

/-- The same names in the same order, bound to things that are related. -/
def Like (R : α → α → Prop) (b b' : Bindings α) : Prop :=
  List.Forall₂ (fun p p' => p'.1 = p.1 ∧ R p.2 p'.2) b.entries b'.entries

namespace Like

variable {b b' : Bindings α}

theorem empty : Like R (.empty : Bindings α) .empty := .nil

theorem get? (h : b.Like R b') (name : String) : b.get? name = none ∧ b'.get? name = none ∨
    ∃ a a', b.get? name = some a ∧ b'.get? name = some a' ∧ R a a' := by
  obtain ⟨entries⟩ := b
  obtain ⟨entries'⟩ := b'
  change List.Forall₂ _ entries entries' at h
  unfold Bindings.get?
  induction h with
  | nil => exact .inl ⟨rfl, rfl⟩
  | @cons p p' _ _ hp _ ih =>
    obtain ⟨key, a⟩ := p
    obtain ⟨key', a'⟩ := p'
    obtain ⟨rfl, ha⟩ := hp
    by_cases hk : name = key'
    · subst hk
      exact .inr ⟨a, a', by simp, by simp, ha⟩
    · simpa [List.lookup_cons, beq_eq_false_iff_ne.2 hk] using ih

theorem contains (h : b.Like R b') (name : String) : b'.contains name = b.contains name := by
  unfold Bindings.contains
  obtain ⟨hb, hb'⟩ | ⟨_, _, hb, hb', -⟩ := h.get? name
  · rw [hb, hb']
  · rw [hb, hb']
    rfl

theorem set (h : b.Like R b') {a a' : α} (ha : R a a') (name : String) :
    (b.set name a).Like R (b'.set name a') := by
  obtain ⟨entries⟩ := b
  obtain ⟨entries'⟩ := b'
  change List.Forall₂ _ entries entries' at h
  change List.Forall₂ _ (write name a entries) (write name a' entries')
  induction h with
  | nil => exact .cons ⟨rfl, ha⟩ .nil
  | @cons p p' _ _ hp hr ih =>
    obtain ⟨key, b⟩ := p
    obtain ⟨key', b'⟩ := p'
    obtain ⟨rfl, hb⟩ := hp
    by_cases hk : name = key'
    · simpa [write, hk] using ⟨ha, hr⟩
    · simpa [write, hk] using ⟨hb, ih⟩

theorem ofList (names : List String) {as as' : List α} (h : List.Forall₂ R as as') :
    (Bindings.ofList (names.zip as)).Like R (Bindings.ofList (names.zip as')) := by
  have fold : ∀ {as as' : List α}, List.Forall₂ R as as' → ∀ (names : List String)
      {b b' : Bindings α}, b.Like R b' →
      ((names.zip as).foldl (fun b p => b.set p.1 p.2) b).Like R
        ((names.zip as').foldl (fun b p => b.set p.1 p.2) b') := by
    intro as as' h
    induction h with
    | nil => intro names b b' hb; simpa using hb
    | cons ha _ ih =>
      intro names b b' hb
      cases names with
      | nil => exact hb
      | cons name names => exact ih names (hb.set ha name)
  exact fold h names empty

theorem eq (hR : ∀ {a a'}, R a a' → a' = a) (h : b.Like R b') : b' = b := by
  obtain ⟨entries⟩ := b
  obtain ⟨entries'⟩ := b'
  change List.Forall₂ _ entries entries' at h
  refine congrArg Bindings.mk ?_
  induction h with
  | nil => rfl
  | cons hp _ ih => rw [ih, Prod.ext hp.1 (hR hp.2)]

theorem of_mem (h : ∀ p ∈ b.entries, R p.2 p.2) : b.Like R b :=
  List.forall₂_same.2 fun p hp => ⟨rfl, h p hp⟩

end Like

end Bindings

/-! ## Values -/

/-- Which trees may stand for each other, and which cells are compared. -/
structure Comparison extends Likeness where
  cell : Cell → Prop
  /-- What the other cells hold, in the first store and in the second one. -/
  left : Cell → Bindings Value
  right : Cell → Bindings Value
  /-- What the second machine has printed before. -/
  printed : Array String
  /-- What the second machine has to do behind its program. -/
  more : List Stmt

/-- All frames of the environment are compared. -/
def Env.Within (C : Comparison) (env : Env) : Prop := ∀ f ∈ env.chain, C.cell (.frame f)

/-- The same function, with a like declaration, in an environment that is compared. -/
structure Closure.Like (C : Comparison) (f f' : Closure) : Prop where
  stamp : f'.stamp = f.stamp
  decl : f.decl.Like C.toLikeness f'.decl
  env : f'.env = f.env
  isInit : f'.isInit = f.isInit
  within : f.env.Within C

/-- The same class, with like methods. -/
structure Class.Like (C : Comparison) (c c' : Class) : Prop where
  stamp : c'.stamp = c.stamp
  name : c'.name = c.name
  methods : c.methods.Like (Closure.Like C) c'.methods

/-- The same object, of a like class; its fields are compared. -/
structure Instance.Like (C : Comparison) (o o' : Instance) : Prop where
  id : o'.id = o.id
  cls : o.cls.Like C o'.cls
  within : C.cell (.object o.id)

/-- The same value, but for the declarations in it. -/
inductive Value.Like (C : Comparison) : Value → Value → Prop
  | nil : Like C .nil .nil
  | bool (b) : Like C (.bool b) (.bool b)
  | number (x) : Like C (.number x) (.number x)
  | string (text) : Like C (.string text) (.string text)
  | native (f) : Like C (.callable (.native f)) (.callable (.native f))
  | closure {f f' : Closure} : f.Like C f' → Like C (.callable (.closure f)) (.callable (.closure f'))
  | class {c c' : Class} : c.Like C c' → Like C (.callable (.class c)) (.callable (.class c'))
  | object {o o' : Instance} : o.Like C o' → Like C (.object o) (.object o')

/-- The same fault at a like token. -/
structure RuntimeError.Like (L : Likeness) (e e' : RuntimeError) : Prop where
  token : e.token.Like L e'.token
  fault : e'.fault = e.fault

/-- Like values, or like errors. -/
inductive ResultLike (C : Comparison) : Except RuntimeError Value → Except RuntimeError Value → Prop
  | ok {v v' : Value} : v.Like C v' → ResultLike C (.ok v) (.ok v')
  | error {e e' : RuntimeError} : e.Like C.toLikeness e' → ResultLike C (.error e) (.error e')

variable {C : Comparison}

namespace Class.Like

variable {c c' : Class}

theorem init? (h : c.Like C c') : c.init? = none ∧ c'.init? = none ∨
    ∃ f f', c.init? = some f ∧ c'.init? = some f' ∧ f.Like C f' :=
  h.methods.get? FunctionDecl.initName

theorem arity (h : c.Like C c') : c'.arity = c.arity := by
  unfold Class.arity
  obtain ⟨hi, hi'⟩ | ⟨f, f', hi, hi', hf⟩ := h.init?
  · rw [hi, hi']
  · rw [hi, hi']
    exact hf.decl.arity

end Class.Like

namespace Value.Like

variable {v v' w w' : Value}

theorem isTruthy (h : v.Like C v') : v'.isTruthy = v.isTruthy := by
  cases h <;> rfl

theorem text (h : v.Like C v') : v'.text = v.text := by
  cases h with
  | closure hf => exact congrArg (fun name => "<fn " ++ name ++ ">") hf.decl.name.lexeme
  | «class» hc => exact hc.name
  | object ho => exact congrArg (· ++ " instance") ho.cls.name
  | _ => rfl

/-- Only stamps and the numbers of objects count for the equality of callable values and objects. -/
theorem equals (hv : v.Like C v') (hw : w.Like C w') : v'.equals w' = v.equals w := by
  cases hv with
  | closure hf =>
    cases hw with
    | closure hg => exact congr_arg₂ (· == ·) hf.stamp hg.stamp
    | _ => rfl
  | «class» hc =>
    cases hw with
    | «class» hd => exact congr_arg₂ (· == ·) hc.stamp hd.stamp
    | _ => rfl
  | object ho =>
    cases hw with
    | object hp => exact congr_arg₂ (· == ·) ho.id hp.id
    | _ => rfl
  | _ => cases hw <;> rfl

end Value.Like

theorem Literal.value_like (l : Literal) : l.value.Like C l.value := by
  cases l with
  | number x => exact .number x
  | string text => exact .string text
  | bool b => exact .bool b
  | nil => exact .nil

/-! ## Operators -/

theorem decides_like {op op' : Token} {v v' : Value} (hop : op.Like C.toLikeness op')
    (hv : v.Like C v') : decides op' v' = decides op v := by
  unfold decides
  rw [hop.is, hv.isTruthy]

theorem unaryOperation_like {op op' : Token} {v v' : Value} (hop : op.Like C.toLikeness op')
    (hv : v.Like C v') : ResultLike C (unaryOperation op v) (unaryOperation op' v') := by
  have fails (fault : RuntimeFault) : ResultLike C (.error ⟨op, fault⟩) (.error ⟨op', fault⟩) :=
    .error ⟨hop, rfl⟩
  by_cases hminus : op.kind = .symbol .minus
  · cases hv with
    | number x => simpa [unaryOperation, hop.kind, hminus] using .ok (.number (-x))
    | _ => simpa [unaryOperation, hop.kind, hminus] using fails _
  by_cases hbang : op.kind = .symbol .bang
  · simpa [unaryOperation, hop.kind, hbang, hv.isTruthy] using .ok (.bool !v.isTruthy)
  · simpa [unaryOperation, hop.kind, hminus, hbang] using fails _

/-- The operands are like numbers, and then the same, or one of them is no number in both. -/
theorem Value.Like.numbers {v v' w w' : Value} (hv : v.Like C v') (hw : w.Like C w') :
    (∃ x y, v = .number x ∧ v' = .number x ∧ w = .number y ∧ w' = .number y) ∨
      (∀ x y, v = .number x → w ≠ .number y) ∧ ∀ x y, v' = .number x → w' ≠ .number y := by
  cases hv with
  | number x =>
    cases hw with
    | number y => exact .inl ⟨x, y, rfl, rfl, rfl, rfl⟩
    | _ => exact .inr ⟨nofun, nofun⟩
  | _ => exact .inr ⟨nofun, nofun⟩

theorem numberOperation?_like {kind : TokenKind} {f : Float → Float → Value}
    (h : numberOperation? kind = some f) (x y : Float) : (f x y).Like C (f x y) := by
  unfold numberOperation? at h
  split at h <;> cases h
  · exact .number _
  · exact .number _
  · exact .number _
  · exact .bool _
  · exact .bool _
  · exact .bool _
  · exact .bool _

theorem binaryOperation_like {op op' : Token} {v v' w w' : Value} (hop : op.Like C.toLikeness op')
    (hv : v.Like C v') (hw : w.Like C w') :
    ResultLike C (binaryOperation op v w) (binaryOperation op' v' w') := by
  have fails (fault : RuntimeFault) : ResultLike C (.error ⟨op, fault⟩) (.error ⟨op', fault⟩) :=
    .error ⟨hop, rfl⟩
  have hequals := hv.equals hw
  by_cases hequal : op.kind = .symbol .equalEqual
  · simpa [binaryOperation, hop.kind, hequal, hequals] using .ok (.bool (v.equals w))
  by_cases hbang : op.kind = .symbol .bangEqual
  · simpa [binaryOperation, hop.kind, hbang, hequals] using .ok (.bool !v.equals w)
  by_cases hplus : op.kind = .symbol .plus
  · cases hv with
    | number x =>
      cases hw with
      | number y => simpa [binaryOperation, hop.kind, hplus] using .ok (.number (x + y))
      | _ => simpa [binaryOperation, hop.kind, hplus] using fails _
    | string t =>
      cases hw with
      | string u => simpa [binaryOperation, hop.kind, hplus] using .ok (.string (t ++ u))
      | _ => simpa [binaryOperation, hop.kind, hplus] using fails _
    | _ => simpa [binaryOperation, hop.kind, hplus] using fails _
  · obtain ⟨x, y, rfl, rfl, rfl, rfl⟩ | ⟨hn, hn'⟩ := hv.numbers hw
    · cases hf : numberOperation? op.kind with
      | none =>
        simpa [binaryOperation, hop.kind, hequal, hbang, hplus, hf] using fails .unknownBinary
      | some f =>
        simpa [binaryOperation, hop.kind, hequal, hbang, hplus, hf] using
          .ok (numberOperation?_like hf x y)
    · simpa [binaryOperation, hop.kind, hequal, hbang, hplus, hn, hn'] using
        fails .operandsNotNumbers

/-! ## Stores -/

/-- Stores of the same size that hold like values in all cells that are compared, and in the others
what the comparison says. -/
structure Store.Like (C : Comparison) (s s' : Store) : Prop where
  frames : s'.frames.size = s.frames.size
  objects : s'.objects.size = s.objects.size
  stamp : s'.nextStamp = s.nextStamp
  compared : ∀ c, C.cell c → (s.contents c).Like (Value.Like C) (s'.contents c)
  other : ∀ c, ¬ C.cell c → s.contents c = C.left c ∧ s'.contents c = C.right c
  /-- What is still to be made will be compared. -/
  new : ∀ c, ¬ s.Has c → C.cell c

namespace Store.Like

variable {s s' : Store} {env : Env}

/-! ### Look-ups -/

theorem contains (h : s.Like C s') {f : FrameId} (hf : C.cell (.frame f)) (name : String) :
    (s'.frame f).contains name = (s.frame f).contains name :=
  (h.compared (.frame f) hf).contains name

theorem holder? (h : s.Like C s') (hw : env.Within C) (name : String) :
    s'.holder? env name = s.holder? env name :=
  List.find?_congr fun f hf => h.contains (hw f hf) name

theorem holderAt? (h : s.Like C s') (hw : env.Within C) (d : Nat) (name : String) :
    s'.holderAt? env d name = s.holderAt? env d name := by
  unfold Store.holderAt?
  cases hf : env.chain[d]? with
  | none => rfl
  | some f =>
    rw [Option.filter_some, Option.filter_some, h.contains (hw f (List.mem_of_getElem? hf)) name]

theorem holder_within (hw : env.Within C) {name : String} {f : FrameId} :
    (s.holder? env name = some f → C.cell (.frame f)) ∧
      ∀ d, s.holderAt? env d name = some f → C.cell (.frame f) := by
  refine ⟨fun hf => hw f (List.mem_of_find?_eq_some hf), fun d hf => ?_⟩
  have := Option.eq_some_of_filter_eq_some hf
  exact hw f (List.mem_of_getElem? this)

theorem get? (h : s.Like C s') (hw : env.Within C) (name : String) :
    s.get? env name = none ∧ s'.get? env name = none ∨
      ∃ v v', s.get? env name = some v ∧ s'.get? env name = some v' ∧ v.Like C v' := by
  unfold Store.get?
  rw [h.holder? hw]
  cases hf : s.holder? env name with
  | none => exact .inl ⟨rfl, rfl⟩
  | some f => exact (h.compared (.frame f) ((holder_within hw).1 hf)).get? name

theorem getAt? (h : s.Like C s') (hw : env.Within C) (d : Nat) (name : String) :
    s.getAt? env d name = none ∧ s'.getAt? env d name = none ∨
      ∃ v v', s.getAt? env d name = some v ∧ s'.getAt? env d name = some v' ∧ v.Like C v' := by
  unfold Store.getAt?
  rw [h.holderAt? hw]
  cases hf : s.holderAt? env d name with
  | none => exact .inl ⟨rfl, rfl⟩
  | some f => exact (h.compared (.frame f) ((holder_within hw).2 d hf)).get? name

/-! ### Changes -/

variable {v v' : Value}

theorem setVar (h : s.Like C s') {f : FrameId} (hf : C.cell (.frame f)) (hv : v.Like C v')
    (name : String) : (s.setVar f name v).Like C (s'.setVar f name v') := by
  refine ⟨by simpa using h.frames, h.objects, h.stamp, fun c hc => ?_, fun c hc => ?_,
    fun c hc => h.new c fun hs => hc (has_setVar hs)⟩
  · rw [contents_setVar, contents_setVar, h.frames]
    split
    · exact (h.compared c hc).set hv name
    · exact h.compared c hc
  · have hne : c ≠ .frame f := fun he => hc (he ▸ hf)
    rw [contents_setVar, contents_setVar, if_neg fun he => hne he.1, if_neg fun he => hne he.1]
    exact h.other c hc

theorem setField (h : s.Like C s') {o : ObjectId} (ho : C.cell (.object o)) (hv : v.Like C v')
    (name : String) : (s.setField o name v).Like C (s'.setField o name v') := by
  refine ⟨h.frames, by simpa using h.objects, h.stamp, fun c hc => ?_, fun c hc => ?_,
    fun c hc => h.new c fun hs => hc (has_setField hs)⟩
  · rw [contents_setField, contents_setField, h.objects]
    split
    · exact (h.compared c hc).set hv name
    · exact h.compared c hc
  · have hne : c ≠ .object o := fun he => hc (he ▸ ho)
    rw [contents_setField, contents_setField, if_neg fun he => hne he.1, if_neg fun he => hne he.1]
    exact h.other c hc

theorem freshStamp (h : s.Like C s') : s.freshStamp.2.Like C s'.freshStamp.2 :=
  ⟨h.frames, h.objects, congrArg (· + 1) h.stamp, h.compared, h.other, h.new⟩

/-- The next frame is compared. -/
theorem next_frame (h : s.Like C s') : C.cell (.frame s.frames.size) :=
  h.new _ (Nat.lt_irrefl _)

theorem next_object (h : s.Like C s') : C.cell (.object s.objects.size) :=
  h.new _ (Nat.lt_irrefl _)

theorem addFrame (h : s.Like C s') {vars vars' : Bindings Value}
    (hv : vars.Like (Value.Like C) vars') : (s.addFrame vars).2.Like C (s'.addFrame vars').2 := by
  refine ⟨by simpa using h.frames, h.objects, h.stamp, fun c hc => ?_, fun c hc => ?_,
    fun c hc => h.new c fun hs => hc (has_addFrame hs)⟩
  · rw [contents_addFrame, contents_addFrame, h.frames]
    split
    · exact hv
    · exact h.compared c hc
  · have hne : c ≠ .frame s.frames.size := fun he => hc (he ▸ h.next_frame)
    rw [contents_addFrame, contents_addFrame, h.frames, if_neg hne, if_neg hne]
    exact h.other c hc

theorem addObject (h : s.Like C s') : s.addObject.2.Like C s'.addObject.2 := by
  refine ⟨h.frames, by simpa using h.objects, h.stamp, fun c hc => ?_, fun c hc => ?_,
    fun c hc => h.new c fun hs => hc (has_addObject hs)⟩
  · rw [contents_addObject, contents_addObject, h.objects]
    split
    · exact .empty
    · exact h.compared c hc
  · have hne : c ≠ .object s.objects.size := fun he => hc (he ▸ h.next_object)
    rw [contents_addObject, contents_addObject, h.objects, if_neg hne, if_neg hne]
    exact h.other c hc

/-- A new environment inside one that is compared. -/
theorem childEnv (h : s.Like C s') (hw : env.Within C) {vars vars' : Bindings Value}
    (hv : vars.Like (Value.Like C) vars') :
    (s'.childEnv env vars').1 = (s.childEnv env vars).1 ∧ (s.childEnv env vars).1.Within C ∧
      (s.childEnv env vars).2.Like C (s'.childEnv env vars').2 := by
  refine ⟨?_, List.forall_mem_cons.2 ⟨h.next_frame, hw⟩, h.addFrame hv⟩
  exact congrArg (fun f => Env.mk f env.chain) h.frames

theorem closure (h : s.Like C s') (hw : env.Within C) {decl decl' : FunctionDecl}
    (hd : decl.Like C.toLikeness decl') (isInit : Bool) :
    (s.closure decl env isInit).1.Like C (s'.closure decl' env isInit).1 ∧
      (s.closure decl env isInit).2.Like C (s'.closure decl' env isInit).2 :=
  ⟨⟨h.stamp, hd, rfl, rfl, hw⟩, h.freshStamp⟩

theorem methods (h : s.Like C s') (hw : env.Within C) {decls decls' : List FunctionDecl}
    (hd : List.Forall₂ (FunctionDecl.Like C.toLikeness) decls decls') {found found' : Bindings Closure}
    (hf : found.Like (Closure.Like C) found') :
    (s.methods env decls found).1.Like (Closure.Like C) (s'.methods env decls' found').1 ∧
      (s.methods env decls found).2.Like C (s'.methods env decls' found').2 := by
  induction hd generalizing s s' found found' with
  | nil => exact ⟨hf, h⟩
  | @cons d d' _ _ hd _ ih =>
    have hnew := h.closure hw hd d.isInit
    rw [Store.methods, Store.methods, hd.isInit, hd.name.lexeme]
    exact ih hnew.2 (hf.set hnew.1 _)

/-- A function gets a receiver in a frame of its own. -/
theorem bind (h : s.Like C s') {f f' : Closure} (hf : f.Like C f') {o o' : Instance}
    (ho : o.Like C o') :
    (s.bind f o).1.Like C (s'.bind f' o').1 ∧ (s.bind f o).2.Like C (s'.bind f' o').2 := by
  have hvars : (Bindings.empty.set receiverName (.object o)).Like (Value.Like C)
      (Bindings.empty.set receiverName (.object o')) := Bindings.Like.empty.set (.object ho) _
  obtain ⟨henv, hwithin, hstore⟩ := h.childEnv hf.within hvars
  unfold Store.bind
  rw [hf.env]
  exact ⟨⟨hstore.stamp, hf.decl, henv, hf.isInit, hwithin⟩, hstore.freshStamp⟩

end Store.Like

end Lox
