/-
What the operations on the store do to a layout: a new frame gets the label of
its scope, a declaration adds to the current frame the name that its scope just
got, and a write to a name that is there changes nothing that a layout sees.
-/
import Lox.Proofs.Machine.Mirror
import Lox.Proofs.Machine.Origin

namespace Lox

/-! ## Names in frames -/

/-- The names of the parameters are defined in the scope of a function, and no others. -/
theorem get?_params (params : List Token) (scope inner : Scope) (outer : List Scope)
    (h : params.foldl (fun scopes name => withDefined name scopes) (scope :: outer) =
      inner :: outer) (name : String) :
    inner.get? name = if name ∈ params.map Token.lexeme then some .defined else scope.get? name := by
  induction params generalizing scope with
  | nil =>
    simp only [List.foldl_nil, List.cons.injEq, and_true] at h
    simp [h]
  | cons param rest ih =>
    rw [ih _ h, Bindings.get?_set]
    by_cases hr : name ∈ rest.map Token.lexeme
    · simp only [List.map_cons, List.mem_cons, hr, or_true, if_true]
    · by_cases hn : name = param.lexeme
      · simp [hn]
      · simp only [List.map_cons, List.mem_cons, hr, hn, or_self, if_false]

namespace Layout

variable {G : Layout} {s : Store}

/-! ## Stores with the same names -/

/-- When the frames hold the same names as before, a layout sees no difference. -/
theorem later_of_names (b : FrameId) (G : Layout) (s s' : Store)
    (h : ∀ f name, (s'.frame f).contains name = (s.frame f).contains name) : Later b G s G s' :=
  ⟨fun _ _ h => h, List.prefix_rfl, fun f name hn => (h f name).trans hn,
    fun f _ name hn => (h f name).symm.trans hn⟩

theorem OkStore.all (hs : G.OkStore s) : s.All (G.OkValue s) := ⟨hs.vars, hs.fields⟩

/-- A store with the same names stays well if every value in it is. -/
theorem OkStore.of_names (hs : G.OkStore s) {s' : Store} (hsize : s'.frames.size = s.frames.size)
    (h : ∀ f name, (s'.frame f).contains name = (s.frame f).contains name)
    (hv : s'.All (G.OkValue s)) : G.OkStore s' := by
  have hl := later_of_names 0 G s s' h
  obtain ⟨hvars, hfields⟩ := hv.mono fun _ => hl.value
  refine ⟨hs.size.trans hsize.symm, hs.globals, fun f closing name hc hn => ?_, hvars, hfields⟩
  exact hs.only f closing name hc ((h f name).symm.trans hn)

/-- A name that a frame has is written again. -/
theorem contains_setVar {f : FrameId} {name : String} (hc : (s.frame f).contains name = true)
    (v : Value) (g : FrameId) (other : String) :
    ((s.setVar f name v).frame g).contains other = (s.frame g).contains other := by
  rw [Store.frame_setVar]
  split
  next h =>
    rw [h.1, Bindings.contains_set]
    by_cases ho : other = name
    · rw [ho, hc, Bool.or_true]
    · simp [ho]
  next => rfl

theorem OkStore.setVar (hs : G.OkStore s) {f : FrameId} {name : String}
    (hc : (s.frame f).contains name = true) {v : Value} (hv : G.OkValue s v) :
    G.OkStore (s.setVar f name v) :=
  hs.of_names (Store.size_setVar ..) (contains_setVar hc v) (hs.all.setVar f name hv)

theorem OkStore.setField (hs : G.OkStore s) (o : ObjectId) (name : String) {v : Value}
    (hv : G.OkValue s v) : G.OkStore (s.setField o name v) :=
  hs.of_names rfl (fun _ _ => rfl) (hs.all.setField o name hv)

theorem OkStore.addObject (hs : G.OkStore s) : G.OkStore s.addObject.2 :=
  hs.of_names rfl (fun _ _ => rfl) hs.all.addObject

/-- The number that the next function gets does not matter. -/
theorem OkStore.stamp (hs : G.OkStore s) (n : Nat) : G.OkStore { s with nextStamp := n } :=
  hs.of_names rfl (fun _ _ => rfl) (hs.all.stamp n)

/-! ## A declaration -/

/-- A declaration adds its name to the current frame, which is none of those further out. -/
theorem later_define (env : Env) (name : String) (v : Value) :
    Later env.frame G s G (s.define env name v) := by
  refine ⟨fun _ _ h => h, List.prefix_rfl, fun f other hn => ?_, fun f hf other hn => ?_⟩
  · rw [Store.define, Store.frame_setVar]
    split
    next h =>
      rw [h.1] at hn
      rw [Bindings.contains_set, hn, Bool.or_true]
    next => exact hn
  · rw [Store.define, Store.frame_setVar, if_neg (fun h => Nat.ne_of_lt hf h.1)] at hn
    exact hn

theorem frame_define {env : Env} (hlt : env.frame < s.frames.size) (name : String) (v : Value) :
    (s.define env name v).frame env.frame = (s.frame env.frame).set name v := by
  rw [Store.define, Store.frame_setVar, if_pos ⟨rfl, hlt⟩]

/-- What a declaration leaves: the frame has the name, and at the place behind it so has the
scope. -/
theorem Active.define {env : Env} {p : Spot} {name : Token} {v : Value} (ha : G.Active s env p)
    (hlt : env.frame < s.frames.size) :
    G.Active (s.define env name.lexeme v) env (p.defined name) := by
  have hf : G.Follows (s.define env name.lexeme v) env p :=
    (later_define env name.lexeme v).follows ha.follows
  obtain ⟨frame, outer⟩ := env
  obtain ⟨scopes, closing⟩ := p
  cases scopes with
  | nil => exact ⟨hf, fun scope hs => by cases hs⟩
  | cons scope scopes =>
    have hframe : (s.define ⟨frame, outer⟩ name.lexeme v).frame frame =
        (s.frame frame).set name.lexeme v := frame_define hlt name.lexeme v
    refine ⟨?_, fun scope' hs other hn => ?_⟩
    · have hf' : G.Chain _ (frame :: outer) (scope :: scopes) closing := hf
      cases hf' with
      | scope hl hd ho =>
        refine .scope hl (fun other hn => ?_) ho
        rw [Bindings.get?_set] at hn
        split at hn
        next h => rw [hframe, Bindings.contains_set, h, decide_eq_true rfl, Bool.true_or]
        next => exact hd other hn
    · cases hs
      rw [Bindings.get?_set]
      split
      next => rfl
      next h =>
        rw [hframe, Bindings.contains_set, decide_eq_false h, Bool.false_or] at hn
        exact ha.exact scope rfl other hn

/-- While its initializer is evaluated, the name of a declaration is pending: it is new, and so no
frame has it yet. -/
theorem Active.pending {env : Env} {p : Spot} {name : Token} (ha : G.Active s env p)
    (hnew : ∀ scope outer, p.scopes = scope :: outer → scope.contains name.lexeme = false) :
    G.Active s env ⟨withPending name p.scopes, p.closing⟩ := by
  obtain ⟨frame, outer⟩ := env
  obtain ⟨scopes, closing⟩ := p
  cases scopes with
  | nil => exact ⟨ha.follows, fun scope hs => by cases hs⟩
  | cons scope scopes =>
    have hf : G.Chain s (frame :: outer) (scope :: scopes) closing := ha.follows
    refine ⟨?_, fun scope' hs other hn => ?_⟩
    · cases hf with
      | scope hl hd ho =>
        refine .scope hl (fun other hn => ?_) ho
        rw [Bindings.get?_set] at hn
        split at hn
        · cases hn
        · exact hd other hn
    · cases hs
      have hd := ha.exact scope rfl other hn
      rw [Bindings.get?_set, if_neg ?_]
      · exact hd
      · rintro rfl
        have := Bindings.contains_of_get? hd
        rw [hnew scope scopes rfl] at this
        cases this

/-- The value may be a function that sees its own name, so it is looked at behind the declaration. -/
theorem OkStore.define (hs : G.OkStore s) {env : Env} {p : Spot} {name : Token} {v : Value}
    (ha : G.Active s env p) (hg : Grows (withDefined name p.scopes) p.closing)
    (hv : G.OkValue (s.define env name.lexeme v) v) : G.OkStore (s.define env name.lexeme v) := by
  have hl := later_define (G := G) (s := s) env name.lexeme v
  obtain ⟨hvars, hfields⟩ := (hs.all.mono fun _ => hl.value).setVar env.frame name.lexeme hv
  refine ⟨hs.size.trans (Store.size_setVar ..).symm, hs.globals, fun f closing other hc hn => ?_,
    hvars, hfields⟩
  · rw [Store.define, Store.frame_setVar] at hn
    split at hn
    next h =>
      rw [Bindings.contains_set] at hn
      by_cases ho : other = name.lexeme
      · obtain ⟨frame, outer⟩ := env
        obtain ⟨scopes, closings⟩ := p
        rw [h.1] at hc
        have hfollows : G.Chain _ (frame :: outer) scopes closings := ha.follows
        cases hfollows with
        | globals => rw [hs.globals] at hc; cases hc
        | scope hl' _ _ =>
          rw [hc] at hl'
          cases hl'
          cases hg with
          | cons hg _ => exact hg other (by rw [Bindings.contains_set, ho, decide_eq_true rfl]; rfl)
      · rw [decide_eq_false ho, Bool.false_or] at hn
        exact hs.only f closing other hc (h.1 ▸ hn)
    next => exact hs.only f closing other hc hn

/-! ## A new frame -/

/-- The layout with one more frame, for a scope that holds this when it is closed. -/
def push (G : Layout) (closing : Scope) : Layout :=
  { G with labels := G.labels ++ [some closing] }

theorem later_addFrame (G : Layout) (s : Store) (closing : Scope) (vars : Bindings Value) :
    Later s.frames.size G s (G.push closing) (s.addFrame vars).2 := by
  refine ⟨fun _ _ h => h, List.prefix_append _ _, fun f name hn => ?_, fun f hf name hn => ?_⟩
  · rw [Store.frame_addFrame]
    split
    next h =>
      rw [h, Store.frame_of_size_le (Nat.le_refl _)] at hn
      cases hn
    next => exact hn
  · rwa [Store.frame_addFrame, if_neg (Nat.ne_of_lt hf)] at hn

theorem label_push (hs : G.OkStore s) (closing : Scope) :
    (G.push closing).labels[s.frames.size]? = some (some closing) := by
  rw [push, ← hs.size, List.getElem?_append_right (Nat.le_refl _), Nat.sub_self]
  rfl

theorem OkStore.addFrame (hs : G.OkStore s) (closing : Scope) {vars : Bindings Value}
    (hc : ∀ name, vars.contains name = true → closing.contains name = true)
    (hv : ∀ name v, vars.get? name = some v → G.OkValue s v) :
    (G.push closing).OkStore (s.addFrame vars).2 := by
  have hl := later_addFrame G s closing vars
  obtain ⟨hvars, hfields⟩ := (hs.all.addFrame hv).mono fun _ => hl.value
  refine ⟨?_, hl.label hs.globals, fun f closing' name hlabel hn => ?_, hvars, hfields⟩
  · rw [push, Store.size_addFrame, List.length_append, hs.size]; rfl
  · rw [Store.frame_addFrame] at hn
    split at hn
    next h =>
      rw [h, label_push hs] at hlabel
      cases hlabel
      exact hc name hn
    next h =>
      obtain ⟨hlt, -⟩ := List.getElem?_eq_some_iff.1 hlabel
      have hlt : f < G.labels.length := by
        rw [push, List.length_append, List.length_singleton, hs.size] at hlt
        rw [hs.size]
        exact Nat.lt_of_le_of_ne (Nat.le_of_lt_succ hlt) h
      rw [push, List.getElem?_append_left hlt] at hlabel
      exact hs.only f closing' name hlabel hn

/-- The environment of a new frame, at a place in the scope that the frame is made for. -/
theorem Active.addFrame (hs : G.OkStore s) {env : Env} {p : Spot} {scope : Scope}
    (closing : Scope) {vars : Bindings Value} (hf : G.Follows s env p)
    (hd : ∀ name, scope.get? name = some .defined ↔ vars.contains name = true) :
    (G.push closing).Active (s.addFrame vars).2 ⟨s.frames.size, env.chain⟩
      ⟨scope :: p.scopes, closing :: p.closing⟩ := by
  have hframe : (s.addFrame vars).2.frame s.frames.size = vars := by
    rw [Store.frame_addFrame, if_pos rfl]
  have houter := (later_addFrame G s closing vars).chain hf
  refine ⟨.scope (label_push hs closing) (fun name hn => ?_) houter, fun scope' hs' name hn => ?_⟩
  · rw [hframe]
    exact (hd name).1 hn
  · cases hs'
    rw [hframe] at hn
    exact (hd name).2 hn

end Layout

end Lox
