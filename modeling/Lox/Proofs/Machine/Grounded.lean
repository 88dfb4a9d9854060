/-
States in which nothing leads out of the store. The frames around every function
have been made. So it is at the start (`grounded_initial`), and so it remains
while names are looked up along the frames (`State.Grounded.run`): a state is
grounded exactly if it is the same as itself without spare frames, and the steps
keep that.
-/
import Lox.Proofs.Machine.Oblivious
import Lox.Proofs.Machine.PaddedStep

namespace Lox

/-- The functions in the value have frames of the store around them. -/
def Value.Grounded (s : Store) : Value → Prop
  | .callable (.closure f) => f.env.In s
  | .callable (.class c) => ∀ entry ∈ c.methods.entries, entry.2.env.In s
  | .object o => ∀ entry ∈ o.cls.methods.entries, entry.2.env.In s
  | _ => True

/-- Environments lead to frames of the store only. -/
structure State.Grounded (s : State) : Prop where
  env : s.env.In s.store
  vars : ∀ f, ∀ entry ∈ (s.store.frame f).entries, entry.2.Grounded s.store
  fields : ∀ o, ∀ entry ∈ (s.store.fields o).entries, entry.2.Grounded s.store

theorem Env.In.anchored {env : Env} {s : Store} (h : env.In s) :
    env.Anchored (.same s.frames.size) env :=
  ⟨World.at_same.2 ⟨h _ (List.mem_cons_self ..), rfl⟩,
    World.padded_same fun f hf => h f (List.mem_cons_of_mem _ hf)⟩

theorem Value.Grounded.padded {v : Value} {s : Store} (h : v.Grounded s) :
    v.Padded (.same s.frames.size) v := by
  have hclass {c : Class} (hc : ∀ entry ∈ c.methods.entries, entry.2.env.In s) :
      c.Padded (.same s.frames.size) c :=
    ⟨rfl, rfl, .of_mem fun entry he => ⟨rfl, rfl, rfl, (hc entry he).anchored⟩⟩
  cases v with
  | nil => exact .nil
  | bool b => exact .bool b
  | number x => exact .number x
  | string text => exact .string text
  | object o => exact .object ⟨rfl, hclass h⟩
  | callable f =>
    cases f with
    | native f => exact .native f
    | closure f => exact .closure ⟨rfl, rfl, rfl, Env.In.anchored h⟩
    | «class» c => exact .class (hclass h)

/-- A grounded state is the same as itself, without any spare frames. -/
theorem State.Grounded.padded {s : State} (h : s.Grounded)
    (hd : ∀ id : NodeId, s.distances[id]? = none) :
    s.Padded (.same s.store.frames.size) s := by
  refine ⟨⟨?_, fun g => ?_, ?_, fun f g hat => ?_, nofun, rfl, fun o => ?_, rfl⟩,
    h.env.anchored.padded, rfl, hd, hd, rfl, rfl⟩
  · simp [World.same]
  · simp [World.same]
  · simpa [World.same] using List.nodup_range
  · obtain ⟨-, rfl⟩ := World.at_same.1 hat
    exact .of_mem fun entry he => (h.vars _ entry he).padded
  · exact .of_mem fun entry he => (h.fields o entry he).padded

theorem World.Padded.lt {W : World} {fs gs : List FrameId} (h : W.Padded fs gs) :
    ∀ f ∈ fs, f < W.places.length := by
  induction h with
  | nil => exact nofun
  | place hat _ ih => exact List.forall_mem_cons.2 ⟨hat.lt, ih⟩
  | spare _ _ ih => exact ih

theorem Env.Padded.env_in {W : World} {env env' : Env} {s : Store} (h : env.Padded W env')
    (hs : s.frames.size = W.places.length) : env.In s := fun f hf => by
  rw [hs]
  exact World.Padded.lt h f hf

theorem Bindings.Like.left {α : Type} {R : α → α → Prop} {b b' : Bindings α} (h : b.Like R b') :
    ∀ entry ∈ b.entries, ∃ a, R entry.2 a := by
  obtain ⟨entries⟩ := b
  obtain ⟨entries'⟩ := b'
  change List.Forall₂ _ entries entries' at h
  induction h with
  | nil => exact nofun
  | cons hp _ ih => exact List.forall_mem_cons.2 ⟨⟨_, hp.2⟩, ih⟩

theorem Value.Padded.grounded {W : World} {v v' : Value} {s : Store} (h : v.Padded W v')
    (hs : s.frames.size = W.places.length) : v.Grounded s := by
  have hclass {c c' : Class} (hc : c.Padded W c') :
      ∀ entry ∈ c.methods.entries, entry.2.env.In s := fun entry he => by
    obtain ⟨f, hf⟩ := hc.methods.left entry he
    exact hf.env.padded.env_in hs
  cases h with
  | closure hf => exact hf.env.padded.env_in hs
  | «class» hc => exact hclass hc
  | object ho => exact hclass ho.cls
  | _ => trivial

/-- A state to which another one is the same up to spare frames is grounded. -/
theorem State.Padded.grounded {W : World} {s s' : State} (h : s.Padded W s') : s.Grounded := by
  refine ⟨h.env.env_in h.store.size, fun f entry he => ?_, fun o entry he => ?_⟩
  · by_cases hf : f < s.store.frames.size
    · obtain ⟨g, hat⟩ : ∃ g, W.At f g := ⟨_, List.getElem?_eq_getElem (h.store.size ▸ hf)⟩
      obtain ⟨v, hv⟩ := (h.store.frames f g hat).left entry he
      exact hv.grounded h.store.size
    · rw [Store.frame_of_size_le (Nat.le_of_not_lt hf)] at he
      cases he
  · obtain ⟨v, hv⟩ := (h.store.fields o).left entry he
    exact hv.grounded h.store.size

/-- Carrying out a statement leaves the state grounded. -/
theorem State.Grounded.run {s : State} (hs : s.Grounded)
    (hd : ∀ id : NodeId, s.distances[id]? = none) (stmt : Stmt) (n : Nat) :
    ((Machine.ofStmt s stmt).run n).state.Grounded := by
  have hself : ∃ W, Machine.Padded W (Below.mk (.bottom : Stack .flow) s.env s.env)
      ((Machine.ofStmt s stmt).run n) ((Machine.ofStmt s stmt).run n) := by
    induction n with
    | zero =>
      exact ⟨_, hs.padded hd, .exec (.inl hs.env.anchored) (.bottom rfl rfl)⟩
    | succ n ih =>
      obtain ⟨W, hm⟩ := ih
      rw [Machine.run_last]
      cases ho : ((Machine.ofStmt s stmt).run n).control.outcome? with
      | none =>
        obtain ⟨W', -, hm'⟩ := hm.step ho
        exact ⟨W', hm'⟩
      | some o =>
        rw [Machine.step_of_isDone (by rw [Machine.isDone, ho]; rfl)]
        exact ⟨W, hm⟩
  obtain ⟨W, hm⟩ := hself
  exact hm.state.grounded

end Lox
