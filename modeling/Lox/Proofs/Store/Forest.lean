/-
The frames of a store as a forest. Each frame has one handle, and around it is
the frame of an older handle or none: this holds of nothing, and each operation
keeps it (`Forest.planted`). So the way out of a frame along these links is the
list that its handle holds (`Planted.outward_iff`), it meets no frame twice and
it ends.
-/
import Mathlib.Data.List.Nodup
import Lox.Proofs.Machine.Receiver

namespace Lox

/-- The handles of the frames that some operations have made out of nothing, oldest first, and the
store that they have left. -/
inductive Forest : Store → List Env → Prop
  | empty : Forest .empty []
  | newEnv {s : Store} {envs : List Env} : Forest s envs →
    Forest s.newEnv.2 (envs ++ [s.newEnv.1])
  | childEnv {s : Store} {envs : List Env} {env : Env} (vars : Bindings Value) : Forest s envs →
    env ∈ envs → Forest (s.childEnv env vars).2 (envs ++ [(s.childEnv env vars).1])
  | define {s : Store} {envs : List Env} {env : Env} (name : String) (v : Value) : Forest s envs →
    env ∈ envs → Forest (s.define env name v) envs
  | assign {s s' : Store} {envs : List Env} {env : Env} {name : String} {v : Value} :
    Forest s envs → env ∈ envs → s.assign? env name v = some s' → Forest s' envs
  | assignAt {s s' : Store} {envs : List Env} {env : Env} {d : Nat} {name : String} {v : Value} :
    Forest s envs → env ∈ envs → s.assignAt? env d name v = some s' → Forest s' envs

/-! ## The way out of a frame -/

/-- The frame `g` is right around the frame `f`. -/
def Encloses (envs : List Env) (g f : FrameId) : Prop :=
  ∃ env ∈ envs, env.frame = f ∧ ∃ around, env.enclosing? = some around ∧ around.frame = g

/-- The frame at a distance from a frame on the way out. -/
inductive Outward (envs : List Env) : FrameId → Nat → FrameId → Prop
  | here {f : FrameId} : Outward envs f 0 f
  | out {f g h : FrameId} {d : Nat} : Encloses envs g f → Outward envs g d h →
    Outward envs f (d + 1) h

/-- Every frame has one handle, and what is around it is the handle of an older frame. -/
structure Planted (s : Store) (envs : List Env) : Prop where
  frames : envs.map Env.frame = List.range s.frames.size
  around : ∀ env ∈ envs, ∀ around, env.enclosing? = some around →
    around ∈ envs ∧ around.frame < env.frame

/-- The frames around the frame of a handle. -/
theorem Env.outer_of_enclosing? {env around : Env} (h : env.enclosing? = some around) :
    env.outer = around.chain := by
  obtain ⟨f, _ | ⟨g, outer⟩⟩ := env <;> cases h
  rfl

theorem Env.outer_of_enclosing?_none {env : Env} (h : env.enclosing? = none) : env.outer = [] := by
  obtain ⟨f, _ | ⟨g, outer⟩⟩ := env
  · rfl
  · cases h

namespace Planted

variable {s s' : Store} {envs : List Env} {env env' : Env} {d : Nat} {f g : FrameId}
  {name : String} {v : Value}

theorem empty : Planted .empty [] := ⟨rfl, List.forall_mem_nil _⟩

/-- A new frame around which is nothing or the frame of a handle. -/
theorem push (h : Planted s envs) (hsize : s'.frames.size = s.frames.size + 1)
    (hf : env.frame = s.frames.size)
    (ha : ∀ around, env.enclosing? = some around → around ∈ envs) :
    Planted s' (envs ++ [env]) := by
  have hold : ∀ e ∈ envs, e.frame < s.frames.size := fun e he =>
    List.mem_range.1 (h.frames ▸ List.mem_map_of_mem he)
  refine ⟨?_, fun e he around hl => ?_⟩
  · rw [List.map_append, h.frames, hsize, List.range_succ, List.map_singleton, hf]
  · rcases List.mem_append.1 he with he | he
    · obtain ⟨hmem, hlt⟩ := h.around e he around hl
      exact ⟨List.mem_append_left _ hmem, hlt⟩
    · cases List.mem_singleton.1 he
      have hmem := ha around hl
      exact ⟨List.mem_append_left _ hmem, hf ▸ hold around hmem⟩

/-- A write makes no frame. -/
theorem setVar (h : Planted s envs) (f : FrameId) (name : String) (v : Value) :
    Planted (s.setVar f name v) envs :=
  ⟨by rw [Store.size_setVar, h.frames], h.around⟩

/-- The numbers of the frames are those that have a handle. -/
theorem lt_size_iff (h : Planted s envs) : f < s.frames.size ↔ ∃ env ∈ envs, env.frame = f := by
  rw [← List.mem_range, ← h.frames, List.mem_map]

/-- No frame has two handles. -/
theorem eq_of_frame (h : Planted s envs) (he : env ∈ envs) (he' : env' ∈ envs)
    (hf : env.frame = env'.frame) : env = env' := by
  have hnodup : (envs.map Env.frame).Nodup := h.frames ▸ List.nodup_range
  exact List.inj_on_of_nodup_map hnodup he he' hf

/-- What is right around the frame of a handle. -/
theorem encloses_iff (h : Planted s envs) (he : env ∈ envs) :
    Encloses envs g env.frame ↔ ∃ around, env.enclosing? = some around ∧ around.frame = g := by
  constructor
  · rintro ⟨e, hmem, hf, hl⟩
    cases h.eq_of_frame hmem he hf
    exact hl
  · exact fun hl => ⟨env, he, rfl, hl⟩

/-- The way out along the links is the list of frames that the handle holds. -/
theorem outward_iff (h : Planted s envs) (he : env ∈ envs) :
    Outward envs env.frame d g ↔ env.chain[d]? = some g := by
  induction d generalizing env with
  | zero =>
    constructor
    · rintro ⟨⟩
      rfl
    · intro hg
      cases hg
      exact .here
  | succ d ih =>
    have hchain : env.chain[d + 1]? = env.outer[d]? := List.getElem?_cons_succ ..
    rw [hchain]
    constructor
    · rintro (_ | ⟨hlink, hout⟩)
      obtain ⟨around, hl, rfl⟩ := (h.encloses_iff he).1 hlink
      rw [ih (h.around env he around hl).1] at hout
      rw [Env.outer_of_enclosing? hl]
      exact hout
    · intro hg
      cases hl : env.enclosing? with
      | none =>
        rw [Env.outer_of_enclosing?_none hl] at hg
        cases hg
      | some around =>
        rw [Env.outer_of_enclosing? hl, ← ih (h.around env he around hl).1] at hg
        exact .out ⟨env, he, rfl, around, hl, rfl⟩ hg

/-- No distance leads to two frames. -/
theorem outward_unique (h : Planted s envs) (he : env ∈ envs) (hf : Outward envs env.frame d f)
    (hg : Outward envs env.frame d g) : f = g := by
  rw [h.outward_iff he] at hf hg
  exact Option.some.inj (hf.symm.trans hg)

/-- Each frame on the way out is older than the one before it. -/
theorem add_le_of_outward (h : Planted s envs) (he : env ∈ envs)
    (hg : Outward envs env.frame d g) : d + g ≤ env.frame := by
  induction d generalizing env with
  | zero =>
    cases hg
    exact Nat.le_of_eq (Nat.zero_add _)
  | succ d ih =>
    obtain _ | ⟨hlink, hout⟩ := hg
    obtain ⟨around, hl, rfl⟩ := (h.encloses_iff he).1 hlink
    obtain ⟨hmem, hlt⟩ := h.around env he around hl
    calc d + 1 + g = d + g + 1 := Nat.add_right_comm ..
      _ ≤ around.frame + 1 := Nat.succ_le_succ (ih hmem hout)
      _ ≤ env.frame := hlt

/-- The way out meets no frame twice. -/
theorem outward_once (h : Planted s envs) (he : env ∈ envs) {d' : Nat}
    (hd : Outward envs env.frame d g) (hd' : Outward envs env.frame d' g) : d = d' := by
  induction d generalizing env d' with
  | zero =>
    cases hd
    have hle := h.add_le_of_outward he hd'
    omega
  | succ d ih =>
    obtain _ | d' := d'
    · cases hd'
      have hle := h.add_le_of_outward he hd
      omega
    · obtain _ | ⟨hlink, hout⟩ := hd
      obtain _ | ⟨hlink', hout'⟩ := hd'
      obtain ⟨around, hl, rfl⟩ := (h.encloses_iff he).1 hlink
      obtain ⟨around', hl', rfl⟩ := (h.encloses_iff he).1 hlink'
      cases Option.some.inj (hl.symm.trans hl')
      rw [ih (h.around env he around hl).1 hout hout']

/-- The way out ends. -/
theorem outward_finite (h : Planted s envs) (he : env ∈ envs) :
    ∃ n ≤ s.frames.size, ∀ d, (∃ g, Outward envs env.frame d g) ↔ d < n := by
  have hsome : ∀ d, (∃ g, Outward envs env.frame d g) ↔ d < env.chain.length := fun d => by
    simp only [h.outward_iff he, List.getElem?_eq_some_iff]
    exact ⟨fun ⟨_, hd, _⟩ => hd, fun hd => ⟨_, hd, rfl⟩⟩
  refine ⟨env.chain.length, ?_, hsome⟩
  have hlen : env.chain.length = env.outer.length + 1 := List.length_cons
  obtain ⟨g, hg⟩ := (hsome env.outer.length).2 (hlen ▸ Nat.lt_succ_self _)
  calc env.chain.length = env.outer.length + 1 := hlen
    _ ≤ env.frame + 1 := Nat.succ_le_succ (Nat.le_of_add_right_le (h.add_le_of_outward he hg))
    _ ≤ s.frames.size := h.lt_size_iff.2 ⟨env, he, rfl⟩

end Planted

namespace Store

variable {s s' : Store} {env : Env} {d : Nat} {name : String} {v : Value}

/-- An assignment writes in the frame that holds the name. -/
theorem assign?_eq_some : s.assign? env name v = some s' ↔
    ∃ f, s.holder? env name = some f ∧ s.setVar f name v = s' :=
  Option.bind_eq_some_iff.trans (by simp)

/-- An assignment at a distance writes in the frame at that distance if it holds the name. -/
theorem assignAt?_eq_some : s.assignAt? env d name v = some s' ↔
    ∃ f, s.holderAt? env d name = some f ∧ s.setVar f name v = s' :=
  Option.bind_eq_some_iff.trans (by simp)

end Store

/-- The frames that operations have made are planted: what each operation does keeps it. -/
theorem Forest.planted {s : Store} {envs : List Env} (h : Forest s envs) : Planted s envs := by
  induction h with
  | empty => exact .empty
  | newEnv _ ih =>
    refine ih.push (Store.size_addFrame ..) rfl fun around hl => ?_
    cases hl
  | childEnv vars _ he ih =>
    refine ih.push (Store.size_addFrame ..) rfl fun around hl => ?_
    cases hl
    exact he
  | define name v _ _ ih => exact ih.setVar ..
  | assign _ _ hs ih =>
    obtain ⟨f, -, rfl⟩ := Store.assign?_eq_some.1 hs
    exact ih.setVar ..
  | assignAt _ _ hs ih =>
    obtain ⟨f, -, rfl⟩ := Store.assignAt?_eq_some.1 hs
    exact ih.setVar ..

end Lox
