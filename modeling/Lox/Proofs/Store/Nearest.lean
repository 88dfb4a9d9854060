/-
The nearest binding of a name. `Reaches` says that the way out of a frame comes to
another one without meeting a binding of the name before, `Nearest` that the first
binding is there. A look-up reads the nearest binding, and depends on the frames
that it reaches only (`Planted.get?_congr`). From this follows what a write to one
slot changes (`Planted.sets_setVar`), and `Forest.nearest_binding` puts together
what the operations on a forest do.
-/
import Lox.Proofs.Store.Forest

namespace Lox

/-- At the distance `d` from `f` is the frame `g`, and no frame before it binds the name. -/
structure Reaches (s : Store) (envs : List Env) (f : FrameId) (name : String) (d : Nat)
    (g : FrameId) : Prop where
  out : Outward envs f d g
  before : ∀ e < d, ∀ h, Outward envs f e h → (s.frame h).contains name = false

/-- At the distance `d` from `f` is the frame `g`, the first one that binds the name. -/
structure Nearest (s : Store) (envs : List Env) (f : FrameId) (name : String) (d : Nat)
    (g : FrameId) : Prop extends Reaches s envs f name d g where
  binds : (s.frame g).contains name = true

/-! ## What is found on the way out -/

namespace Store

variable {s : Store} {f : FrameId} {name : String}

/-- A frame that binds a name has been made. -/
theorem lt_size_of_contains (h : (s.frame f).contains name = true) : f < s.frames.size := by
  refine Nat.lt_of_not_le fun hle => ?_
  rw [frame_of_size_le hle] at h
  cases h

/-- A bound name has its value in the frame that holds it. -/
theorem get?_of_holder? {env : Env} (h : s.holder? env name = some f) :
    s.get? env name = (s.frame f).get? name := by
  rw [get?, h]
  rfl

/-- A look-up finds a name if some frame holds it. -/
theorem isSome_get? (s : Store) (env : Env) (name : String) :
    (s.get? env name).isSome = (s.holder? env name).isSome := by
  cases hf : s.holder? env name with
  | none => rw [get?, hf]; rfl
  | some f =>
    rw [get?_of_holder? hf]
    exact List.find?_some (p := fun f => (s.frame f).contains name) hf

/-- A look-up at a distance finds a name if the frame there holds it. -/
theorem isSome_getAt? (s : Store) (env : Env) (d : Nat) (name : String) :
    (s.getAt? env d name).isSome = (s.holderAt? env d name).isSome := by
  rw [getAt?_eq_bind, holderAt?]
  cases env.chain[d]? with
  | none => rfl
  | some f =>
    rw [Option.filter_some, Option.bind_some]
    cases hv : (s.frame f).get? name <;> simp [Bindings.contains, hv]

end Store

namespace Planted

variable {s s' : Store} {envs : List Env} {env : Env} {d : Nat} {f g : FrameId}
  {name : String} {v : Value}

/-- The holder of a name is the nearest frame that binds it. -/
theorem holder?_eq_some (h : Planted s envs) (he : env ∈ envs) :
    s.holder? env name = some g ↔ ∃ d, Nearest s envs env.frame name d g := by
  rw [Store.holder?, List.find?_eq_some_iff_getElem]
  constructor
  · rintro ⟨hg, d, hd, hchain, hbefore⟩
    refine ⟨d, ⟨(h.outward_iff he).2 (List.getElem?_eq_some_iff.2 ⟨hd, hchain⟩), ?_⟩, hg⟩
    intro e hlt f hf
    obtain ⟨_, rfl⟩ := List.getElem?_eq_some_iff.1 ((h.outward_iff he).1 hf)
    simpa using hbefore e hlt
  · rintro ⟨d, ⟨hout, hbefore⟩, hg⟩
    obtain ⟨hd, hchain⟩ := List.getElem?_eq_some_iff.1 ((h.outward_iff he).1 hout)
    refine ⟨hg, d, hd, hchain, fun e hlt => ?_⟩
    have hf := (h.outward_iff he).2 (List.getElem?_eq_getElem (Nat.lt_trans hlt hd))
    simp [hbefore e hlt _ hf]

/-- A name has no holder if no frame on the way out binds it. -/
theorem holder?_eq_none (h : Planted s envs) (he : env ∈ envs) :
    s.holder? env name = none ↔
      ∀ d g, Outward envs env.frame d g → (s.frame g).contains name = false := by
  rw [Store.holder?, List.find?_eq_none]
  simp only [h.outward_iff he, Bool.not_eq_true]
  constructor
  · exact fun hnone d g hg => hnone g (List.mem_of_getElem? hg)
  · intro hnone g hg
    obtain ⟨d, hd⟩ := List.mem_iff_getElem?.1 hg
    exact hnone d g hd

/-- The holder of a name at a distance is the frame there, if it binds the name. -/
theorem holderAt?_eq_some (h : Planted s envs) (he : env ∈ envs) :
    s.holderAt? env d name = some g ↔
      Outward envs env.frame d g ∧ (s.frame g).contains name = true := by
  rw [Store.holderAt?, Option.filter_eq_some_iff, h.outward_iff he]

end Planted

/-- The nearest frame that binds a name is one frame, at one distance. -/
theorem Nearest.unique {s : Store} {envs : List Env} {env : Env} {name : String} {d d' : Nat}
    {g g' : FrameId} (hp : Planted s envs) (he : env ∈ envs)
    (h : Nearest s envs env.frame name d g) (h' : Nearest s envs env.frame name d' g') :
    d = d' ∧ g = g' := by
  have hg : some g = some g' :=
    ((hp.holder?_eq_some he).2 ⟨d, h⟩).symm.trans ((hp.holder?_eq_some he).2 ⟨d', h'⟩)
  cases hg
  exact ⟨hp.outward_once he h.out h'.out, rfl⟩

namespace Planted

variable {s s' : Store} {envs : List Env} {env : Env} {d : Nat} {f g : FrameId}
  {name : String} {v : Value}

/-- A look-up finds the value in the nearest frame that binds the name. -/
theorem get?_eq_some (h : Planted s envs) (he : env ∈ envs) : s.get? env name = some v ↔
    ∃ d g, Nearest s envs env.frame name d g ∧ (s.frame g).get? name = some v := by
  constructor
  · intro hv
    obtain ⟨g, hholder, hg⟩ := Option.bind_eq_some_iff.1 hv
    obtain ⟨d, hd⟩ := (h.holder?_eq_some he).1 hholder
    exact ⟨d, g, hd, hg⟩
  · rintro ⟨d, g, hd, hg⟩
    rw [Store.get?_of_holder? ((h.holder?_eq_some he).2 ⟨d, hd⟩), hg]

/-- A look-up fails if no frame on the way out binds the name. -/
theorem get?_eq_none (h : Planted s envs) (he : env ∈ envs) : s.get? env name = none ↔
    ∀ d g, Outward envs env.frame d g → (s.frame g).contains name = false := by
  rw [← h.holder?_eq_none he, ← Option.isNone_iff_eq_none, ← Option.isNone_iff_eq_none,
    ← Option.not_isSome, ← Option.not_isSome, Store.isSome_get?]

/-- A look-up at a distance finds the value in the frame there. -/
theorem getAt?_eq_some (h : Planted s envs) (he : env ∈ envs) : s.getAt? env d name = some v ↔
    ∃ g, Outward envs env.frame d g ∧ (s.frame g).get? name = some v := by
  simp only [Store.getAt?_eq_bind, Option.bind_eq_some_iff, h.outward_iff he]

/-- The distance of the nearest frame that binds a name leads to its value. -/
theorem getAt?_nearest (h : Planted s envs) (he : env ∈ envs)
    (hd : Nearest s envs env.frame name d g) : s.getAt? env d name = s.get? env name := by
  rw [Store.getAt?_eq_bind, (h.outward_iff he).1 hd.out, Option.bind_some,
    Store.get?_of_holder? ((h.holder?_eq_some he).2 ⟨d, hd⟩)]

/-- A look-up depends only on the frames up to the first one that binds the name. -/
theorem get?_congr (h : Planted s envs) (h' : Planted s' envs) (he : env ∈ envs)
    (hsame : ∀ d f, Reaches s envs env.frame name d f →
      (s'.frame f).get? name = (s.frame f).get? name) :
    s'.get? env name = s.get? env name := by
  have hcontains : ∀ d f, Reaches s envs env.frame name d f →
      (s'.frame f).contains name = (s.frame f).contains name := fun d f hf => by
    rw [Bindings.contains, hsame d f hf, Bindings.contains]
  cases hv : s.get? env name with
  | none =>
    have hnone := (h.get?_eq_none he).1 hv
    refine (h'.get?_eq_none he).2 fun d f hf => ?_
    rw [hcontains d f ⟨hf, fun e _ => hnone e⟩, hnone d f hf]
  | some v =>
    obtain ⟨d, g, hd, hg⟩ := (h.get?_eq_some he).1 hv
    refine (h'.get?_eq_some he).2 ⟨d, g, ⟨⟨hd.out, fun e hlt f hf => ?_⟩, ?_⟩, ?_⟩
    · rw [hcontains e f ⟨hf, fun i hi => hd.before i (Nat.lt_trans hi hlt)⟩, hd.before e hlt f hf]
    · rw [hcontains d g hd.toReaches, hd.binds]
    · rw [hsame d g hd.toReaches, hg]

end Planted

/-! ## What a write changes -/

/-- The second store has `v` in the slot of a name in the frame `g`, and is the first one in
everything else. A look-up of the name from a frame that sees the slot finds `v`, at the distance
of the slot too, and no other look-up has changed. -/
structure Sets (s s' : Store) (envs : List Env) (sees : FrameId → Prop) (g : FrameId)
    (name : String) (v : Value) : Prop where
  slot : ∀ f x, (s'.frame f).get? x = if f = g ∧ x = name then some v else (s.frame f).get? x
  size : s'.frames.size = s.frames.size
  rest : s' = { s with frames := s'.frames }
  seen : ∀ env ∈ envs, sees env.frame → s'.get? env name = some v
  unseen : ∀ env ∈ envs, ∀ x, (x = name → ¬ sees env.frame) → s'.get? env x = s.get? env x
  seenAt : ∀ env ∈ envs, ∀ d, Outward envs env.frame d g → s'.getAt? env d name = some v
  unseenAt : ∀ env ∈ envs, ∀ d x, (x = name → ¬ Outward envs env.frame d g) →
    s'.getAt? env d x = s.getAt? env d x

namespace Planted

variable {s s' : Store} {envs : List Env} {env : Env} {d : Nat} {f g : FrameId}
  {name : String} {v : Value}

theorem sets_setVar (h : Planted s envs) (hg : g < s.frames.size) (name : String) (v : Value) :
    Sets s (s.setVar g name v) envs (fun f => ∃ d, Reaches s envs f name d g) g name v := by
  have h' := h.setVar g name v
  have hslot : ∀ f x, ((s.setVar g name v).frame f).get? x =
      if f = g ∧ x = name then some v else (s.frame f).get? x := fun f x => by
    rw [Store.frame_setVar]
    by_cases hf : f = g
    · subst hf
      simp [hg]
    · simp [hf]
  have hother : ∀ {f x}, ¬ (f = g ∧ x = name) →
      ((s.setVar g name v).frame f).get? x = (s.frame f).get? x := fun {f x} hne => by
    rw [hslot, if_neg hne]
  have hself : ((s.setVar g name v).frame g).get? name = some v := by
    rw [hslot, if_pos ⟨rfl, rfl⟩]
  refine ⟨hslot, Store.size_setVar .., rfl, fun env he ⟨d, hd⟩ => ?_, fun env he x hx => ?_,
    fun env he d hd => ?_, fun env he d x hx => ?_⟩
  · refine (h'.get?_eq_some he).2
      ⟨d, g, ⟨⟨hd.out, fun e hlt f hf => ?_⟩, Bindings.contains_of_get? hself⟩, hself⟩
    have hne : f ≠ g := by
      rintro rfl
      exact Nat.ne_of_lt hlt (h.outward_once he hf hd.out)
    rw [Bindings.contains, hother fun hs => hne hs.1]
    exact hd.before e hlt f hf
  · refine h.get?_congr h' he fun d f hf => hother ?_
    rintro ⟨rfl, rfl⟩
    exact hx rfl ⟨d, hf⟩
  · exact (h'.getAt?_eq_some he).2 ⟨g, hd, hself⟩
  · rw [Store.getAt?_eq_bind, Store.getAt?_eq_bind]
    cases hd : env.chain[d]? with
    | none => rfl
    | some f =>
      rw [Option.bind_some, Option.bind_some]
      refine hother ?_
      rintro ⟨rfl, rfl⟩
      exact hx rfl ((h.outward_iff he).2 hd)

end Planted

/-- What an assignment changes: only the slot of a name that the frame `g` binds already, which the
frames see for which it is the nearest binding. No frame has another name than before. -/
structure Rewrites (s s' : Store) (envs : List Env) (g : FrameId) (name : String) (v : Value) :
    Prop extends Sets s s' envs (fun f => ∃ d, Nearest s envs f name d g) g name v where
  bound : (s.frame g).contains name = true
  keys : ∀ f, (s'.frame f).keys = (s.frame f).keys

theorem Planted.rewrites_setVar {s : Store} {envs : List Env} {g : FrameId} {name : String}
    (h : Planted s envs) (hg : (s.frame g).contains name = true) (v : Value) :
    Rewrites s (s.setVar g name v) envs g name v := by
  have hsets := h.sets_setVar (Store.lt_size_of_contains hg) name v
  have hsees : (fun f => ∃ d, Reaches s envs f name d g) = fun f => ∃ d, Nearest s envs f name d g :=
    funext fun f => propext
      ⟨fun ⟨d, hd⟩ => ⟨d, hd, hg⟩, fun ⟨d, hd⟩ => ⟨d, hd.toReaches⟩⟩
  refine ⟨hsees ▸ hsets, hg, fun f => ?_⟩
  rw [Store.frame_setVar]
  split
  next hf => rw [Bindings.keys_set, if_pos (Bindings.mem_keys.2 hg), hf.1]
  next => rfl

/-! ## Operations -/

/-- What an assignment makes of the store: at a distance, or by name alone. -/
def Store.assigned? (s : Store) (env : Env) (distance : Option Nat) (name : String) (v : Value) :
    Option Store :=
  match distance with
  | some d => s.assignAt? env d name v
  | none => s.assign? env name v

/-- An assignment that fails leaves the whole state as it was. -/
theorem Machine.assign_eq (s : State) (id : NodeId) (name : Token) (v : Value) (k : Stack .value) :
    assign s id name v k =
      match s.store.assigned? s.env s.distances[id]? name.lexeme v with
      | some store => ⟨{ s with store }, .value v k⟩
      | none => ⟨s, .raise (undefinedVariable name) k⟩ := by
  have hassigned : s.store.assigned? s.env s.distances[id]? name.lexeme v =
      (s.holder? id name.lexeme).map fun f => s.store.setVar f name.lexeme v := by
    unfold Store.assigned? State.holder?
    cases s.distances[id]? <;> exact (Option.map_eq_bind ..).symm
  rw [hassigned, assign]
  cases s.holder? id name.lexeme <;> rfl

/-- What the operations do with a name from the frame of a handle. -/
structure NearestBinding (s : Store) (envs : List Env) (env : Env) (name : String) : Prop where
  /-- The way out ends. -/
  finite : ∃ n ≤ s.frames.size, ∀ d, (∃ g, Outward envs env.frame d g) ↔ d < n
  /-- The frame at a distance and the distance of a frame are unique. -/
  one : ∀ d d' g g', Outward envs env.frame d g → Outward envs env.frame d' g' → (d = d' ↔ g = g')
  /-- So are the nearest binding and its distance. -/
  nearest : ∀ d d' g g', Nearest s envs env.frame name d g → Nearest s envs env.frame name d' g' →
    d = d' ∧ g = g'
  get : ∀ v, s.get? env name = some v ↔
    ∃ d g, Nearest s envs env.frame name d g ∧ (s.frame g).get? name = some v
  getFails : s.get? env name = none ↔
    ∀ d g, Outward envs env.frame d g → (s.frame g).contains name = false
  getAt : ∀ d v, s.getAt? env d name = some v ↔
    ∃ g, Outward envs env.frame d g ∧ (s.frame g).get? name = some v
  getAtNearest : ∀ d g, Nearest s envs env.frame name d g → s.getAt? env d name = s.get? env name
  assignWhen : ∀ v, (s.assign? env name v).isSome = (s.get? env name).isSome
  assign : ∀ v s', s.assign? env name v = some s' →
    ∃ d g, Nearest s envs env.frame name d g ∧ Rewrites s s' envs g name v
  assignAtWhen : ∀ d v, (s.assignAt? env d name v).isSome = (s.getAt? env d name).isSome
  assignAt : ∀ d v s', s.assignAt? env d name v = some s' →
    ∃ g, Outward envs env.frame d g ∧ Rewrites s s' envs g name v
  define : ∀ v, Sets s (s.define env name v) envs
    (fun f => ∃ d, Reaches s envs f name d env.frame) env.frame name v
  /-- The machine assigns by these operations, and where they fail it stays as it is. -/
  machine : ∀ (st : State) (id : NodeId) (t : Token) (v : Value) (k : Stack .value),
    st.store = s → st.env = env → t.lexeme = name → Machine.assign st id t v k =
      match s.assigned? env st.distances[id]? name v with
      | some store => ⟨{ st with store }, .value v k⟩
      | none => ⟨st, .raise (undefinedVariable t) k⟩

theorem Planted.nearestBinding {s : Store} {envs : List Env} {env : Env} (h : Planted s envs)
    (he : env ∈ envs) (name : String) : NearestBinding s envs env name where
  finite := h.outward_finite he
  one d d' g g' hd hd' := by
    constructor
    · rintro rfl
      exact h.outward_unique he hd hd'
    · rintro rfl
      exact h.outward_once he hd hd'
  nearest d d' g g' hd hd' := hd.unique h he hd'
  get v := h.get?_eq_some he
  getFails := h.get?_eq_none he
  getAt d v := h.getAt?_eq_some he
  getAtNearest d g hd := h.getAt?_nearest he hd
  assignWhen v := by
    rw [Store.isSome_get?, Store.assign?]
    cases s.holder? env name <;> rfl
  assign v s' hs := by
    obtain ⟨g, hg, rfl⟩ := Store.assign?_eq_some.1 hs
    obtain ⟨d, hd⟩ := (h.holder?_eq_some he).1 hg
    exact ⟨d, g, hd, h.rewrites_setVar hd.binds v⟩
  assignAtWhen d v := by
    rw [Store.isSome_getAt?, Store.assignAt?]
    cases s.holderAt? env d name <;> rfl
  assignAt d v s' hs := by
    obtain ⟨g, hg, rfl⟩ := Store.assignAt?_eq_some.1 hs
    obtain ⟨hout, hbound⟩ := (h.holderAt?_eq_some he).1 hg
    exact ⟨g, hout, h.rewrites_setVar hbound v⟩
  define v := h.sets_setVar (h.lt_size_iff.2 ⟨env, he, rfl⟩) name v
  machine st id t v k hs henv hname := by
    subst hs henv hname
    exact Machine.assign_eq st id t v k

/-- Environments obey the laws of the nearest binding, whatever operations made them: the frames
are those of the handles, each of one, and from each of them every operation on a name has to do
with the nearest frame that binds it, or with the frame at its distance, and with no other slot. -/
theorem Forest.nearest_binding {s : Store} {envs : List Env} (h : Forest s envs) :
    (∀ f, f < s.frames.size ↔ ∃ env ∈ envs, env.frame = f) ∧
    (∀ env ∈ envs, ∀ env' ∈ envs, env.frame = env'.frame → env = env') ∧
    ∀ env ∈ envs, ∀ name, NearestBinding s envs env name :=
  ⟨fun _ => h.planted.lt_size_iff, fun _ he _ he' => h.planted.eq_of_frame he he',
    fun _ he name => h.planted.nearestBinding he name⟩

/-- A frame in which `x` is true, and in it two frames, of which the second one has an `x` of its
own. -/
def shadowing : Store × List Env :=
  let (outer, s) := Store.empty.newEnv
  let (first, s) := s.childEnv outer .empty
  let (second, s) := s.childEnv outer .empty
  ((s.define second "x" (.bool false)).define outer "x" (.bool true), [outer, first, second])

/-- An assignment from the frame without an `x` goes to the one around it, and the frame with its
own `x` does not see it. -/
theorem nearest_binding_shadowing :
    Forest shadowing.1 shadowing.2 ∧ ⟨1, [0]⟩ ∈ shadowing.2 ∧
    ∃ s, shadowing.1.assign? ⟨1, [0]⟩ "x" .nil = some s ∧
      Rewrites shadowing.1 s shadowing.2 0 "x" .nil ∧
      s.get? ⟨1, [0]⟩ "x" = some .nil ∧ s.get? ⟨2, [0]⟩ "x" = some (.bool false) := by
  have houter : ⟨0, []⟩ ∈ shadowing.2 := .head _
  have hmem : ⟨1, [0]⟩ ∈ shadowing.2 := .tail _ (.head _)
  have hinner : ⟨2, [0]⟩ ∈ shadowing.2 := .tail _ (.tail _ (.head _))
  have hone : (⟨0, []⟩ : Env) ∈ [⟨0, []⟩] := .head _
  have htwo : (⟨0, []⟩ : Env) ∈ [⟨0, []⟩, ⟨1, [0]⟩] := .head _
  have hframes : Forest _ shadowing.2 := .childEnv .empty (.childEnv .empty (.newEnv .empty) hone) htwo
  have hforest : Forest shadowing.1 shadowing.2 :=
    (hframes.define "x" (.bool false) hinner).define "x" (.bool true) houter
  have hlaws := hforest.nearest_binding.2.2 ⟨1, [0]⟩ hmem "x"
  have hnearest : Nearest shadowing.1 shadowing.2 1 "x" 1 0 := by
    refine ⟨⟨.out ⟨⟨1, [0]⟩, hmem, rfl, ⟨0, []⟩, rfl, rfl⟩ .here, fun e he f hf => ?_⟩, rfl⟩
    cases Nat.lt_one_iff.1 he
    cases hf
    rfl
  obtain ⟨d, g, hn, hrewrites⟩ := hlaws.assign .nil _ rfl
  obtain ⟨-, rfl⟩ := hlaws.nearest _ _ _ _ hn hnearest
  refine ⟨hforest, hmem, _, rfl, hrewrites, ?_, ?_⟩
  · exact hrewrites.seen _ hmem ⟨1, hnearest⟩
  · rfl

end Lox
