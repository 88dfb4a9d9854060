/-
Execution is confined to what it can reach: the frames of its environment, and
what the values in reached cells lead to. All other cells keep what they hold
(`Machine.confined`), and whatever they hold, the run is the same step by step.
-/
import Lox.Proofs.Machine.Simulate

namespace Lox

/-! ## What a value leads to -/

/-- The functions in a value: itself, or the methods of its class. -/
def Value.closures : Value → List Closure
  | .callable (.closure f) => [f]
  | .callable (.class c) => c.methods.entries.map Prod.snd
  | .object o => o.cls.methods.entries.map Prod.snd
  | _ => []

/-- The cells that a value leads to: the frames in which its functions were declared, and the fields
of the object that it is. -/
inductive Value.Mentions (v : Value) : Cell → Prop
  | frame {f : Closure} {g : FrameId} : f ∈ v.closures → g ∈ f.env.chain → v.Mentions (.frame g)
  | object {o : Instance} : v = .object o → v.Mentions (.object o.id)

/-- The cells that can be reached from an environment: its frames, and those that the values in
reached cells lead to. -/
inductive Store.Reaches (s : Store) (env : Env) : Cell → Prop
  | chain {f : FrameId} : f ∈ env.chain → s.Reaches env (.frame f)
  | held {c d : Cell} {name : String} {v : Value} : s.Reaches env c →
    (name, v) ∈ (s.contents c).entries → v.Mentions d → s.Reaches env d

variable {C : Comparison}

/-- A value that leads only to cells that are compared is like itself. -/
theorem Value.like_refl {v : Value}
    (hd : ∀ f ∈ v.closures, f.decl.Like C.toLikeness f.decl)
    (hc : ∀ c, v.Mentions c → C.cell c) : v.Like C v := by
  have closure (f : Closure) (hf : f ∈ v.closures) : f.Like C f :=
    ⟨rfl, hd f hf, rfl, rfl, fun g hg => hc _ (.frame hf hg)⟩
  have methods {c : Class} (h : c.methods.entries.map Prod.snd = v.closures) : c.Like C c :=
    ⟨rfl, rfl, .of_mem fun p hp => closure p.2 (h ▸ List.mem_map_of_mem hp)⟩
  cases v with
  | nil => exact .nil
  | bool b => exact .bool b
  | number x => exact .number x
  | string text => exact .string text
  | callable f =>
    cases f with
    | native f => exact .native f
    | closure f => exact .closure (closure f (List.mem_singleton.2 rfl))
    | «class» c => exact .class (methods rfl)
  | object o => exact .object ⟨rfl, methods rfl, hc _ (.object rfl)⟩

/-! ## Machines that are alike in all -/

section Exact

variable (hC : C.toLikeness.Exact)

include hC

theorem Closure.Like.eq {f f' : Closure} (h : f.Like C f') : f' = f := by
  obtain ⟨stamp, decl, env, isInit⟩ := f
  obtain ⟨stamp', decl', env', isInit'⟩ := f'
  obtain ⟨hstamp, hdecl, henv, hinit, -⟩ := h
  cases hstamp
  cases henv
  cases hinit
  cases hdecl.eq hC
  rfl

theorem Class.Like.eq {c c' : Class} (h : c.Like C c') : c' = c := by
  obtain ⟨stamp, name, methods⟩ := c
  obtain ⟨stamp', name', methods'⟩ := c'
  obtain ⟨hstamp, hname, hmethods⟩ := h
  cases hstamp
  cases hname
  cases hmethods.eq (Closure.Like.eq hC)
  rfl

theorem Instance.Like.eq {o o' : Instance} (h : o.Like C o') : o' = o := by
  obtain ⟨id, cls⟩ := o
  obtain ⟨id', cls'⟩ := o'
  obtain ⟨hid, hcls, -⟩ := h
  cases hid
  cases hcls.eq hC
  rfl

theorem Value.Like.eq {v v' : Value} (h : v.Like C v') : v' = v := by
  cases h with
  | closure hf => rw [hf.eq hC]
  | «class» hc => rw [hc.eq hC]
  | object ho => rw [ho.eq hC]
  | _ => rfl

theorem Value.Like.eq_all {vs vs' : List Value} (h : List.Forall₂ (Value.Like C) vs vs') :
    vs' = vs := by
  induction h with
  | nil => rfl
  | cons h _ ih => rw [h.eq hC, ih]

theorem Flow.Like.eq {f f' : Flow} (h : f.Like C f') : f' = f := by
  cases h with
  | normal => rfl
  | returned hv => rw [hv.eq hC]

theorem RuntimeError.Like.eq {e e' : RuntimeError} (h : e.Like C.toLikeness e') : e' = e := by
  obtain ⟨token, fault⟩ := e
  obtain ⟨token', fault'⟩ := e'
  obtain ⟨htoken, hfault⟩ := h
  cases hfault
  cases htoken.eq hC
  rfl

theorem Stmt.Like.eq_option {s s' : Option Stmt} (h : Option.Rel (Stmt.Like C.toLikeness) s s') :
    s' = s := by
  cases h with
  | none => rfl
  | some h => rw [h.eq hC]

variable (hmore : C.more = [])

include hmore

theorem Waiting.Like.eq {a b : Yield} {w w' : Waiting a b} (h : w.Like C w') : w' = w := by
  cases h with
  | unary hop => rw [hop.eq hC]
  | binaryLeft hop hr => rw [hop.eq hC, hr.eq hC]
  | binaryRight hl hop => rw [hl.eq hC, hop.eq hC]
  | logical hop hr => rw [hop.eq hC, hr.eq hC]
  | assign hid hn => rw [hC.node hid, hn.eq hC]
  | callee hp ha => rw [hp.eq hC, Expr.Like.eq_all hC ha]
  | argument hc hp hd hr =>
    rw [hc.eq hC, hp.eq hC, Value.Like.eq_all hC hd, Expr.Like.eq_all hC hr]
  | property hn => rw [hn.eq hC]
  | fieldObject hn he => rw [hn.eq hC, he.eq hC]
  | fieldValue ho hn => rw [ho.eq hC, hn.eq hC]
  | construct ho => rw [ho.eq hC]
  | define hn => rw [hn.eq hC]
  | branch hthen helse => rw [hthen.eq hC, Stmt.Like.eq_option hC helse]
  | loopTest ht hb | loopBody ht hb => rw [ht.eq hC, hb.eq hC]
  | block hr _ => rw [Stmt.Like.eq_all hC hr]
  | body hf => rw [hf.eq hC]
  | program hr => rw [Stmt.Like.eq_all hC hr, hmore, List.append_nil]
  | discard | print | ret => rfl

theorem Stack.Like.eq {a : Yield} {k k' : Stack a} (h : k.Like C k') : k' = k := by
  induction h with
  | bottom => rfl
  | push hw _ ih => rw [hw.eq hC hmore, ih]

theorem Control.Like.eq {c c' : Control} (h : c.Like C c') : c' = c := by
  cases h with
  | eval he hk => rw [he.eq hC, hk.eq hC hmore]
  | exec hs hk => rw [hs.eq hC, hk.eq hC hmore]
  | value hv hk => rw [hv.eq hC, hk.eq hC hmore]
  | flow hf hk => rw [hf.eq hC, hk.eq hC hmore]
  | raise he hk => rw [he.eq hC, hk.eq hC hmore]

end Exact

/-! ## Other contents -/

namespace Store

/-- The store in which some cells hold something else. -/
def overwrite (s : Store) (r : Cell → Option (Bindings Value)) : Store :=
  { s with
    frames := s.frames.mapIdx fun f vars => (r (.frame f)).getD vars
    objects := s.objects.mapIdx fun o fields => (r (.object o)).getD fields }

theorem size_overwrite (s : Store) (r : Cell → Option (Bindings Value)) :
    (s.overwrite r).frames.size = s.frames.size ∧ (s.overwrite r).objects.size = s.objects.size := by
  simp [overwrite]

theorem contents_overwrite {s : Store} (r : Cell → Option (Bindings Value)) {c : Cell}
    (h : s.Has c) : (s.overwrite r).contents c = (r c).getD (s.contents c) := by
  cases c with
  | frame f =>
    have h : f < s.frames.size := h
    simp [contents, frame, overwrite, h]
  | object o =>
    have h : o < s.objects.size := h
    simp [contents, fields, overwrite, h]

theorem has_overwrite {s : Store} {r : Cell → Option (Bindings Value)} {c : Cell} :
    (s.overwrite r).Has c ↔ s.Has c := by
  cases c with
  | frame f => rw [Has, (size_overwrite s r).1]; rfl
  | object o => rw [Has, (size_overwrite s r).2]; rfl

/-- Stores are the same if they have the same cells and hold the same in them. -/
theorem ext_contents {s s' : Store} (hf : s'.frames.size = s.frames.size)
    (ho : s'.objects.size = s.objects.size) (hs : s'.nextStamp = s.nextStamp)
    (hc : ∀ c, s.Has c → s'.contents c = s.contents c) : s' = s := by
  obtain ⟨frames, objects, stamp⟩ := s
  obtain ⟨frames', objects', stamp'⟩ := s'
  cases hs
  have hframes : frames' = frames := by
    refine Array.ext hf fun f h' h => ?_
    have := hc (.frame f) h
    simpa [contents, frame, h, h'] using this
  have hobjects : objects' = objects := by
    refine Array.ext ho fun o h' h => ?_
    have := hc (.object o) h
    simpa [contents, fields, h, h'] using this
  rw [hframes, hobjects]

end Store

/-- The state in whose store some cells hold something else. -/
def State.overwrite (s : State) (r : Cell → Option (Bindings Value)) : State :=
  { s with store := s.store.overwrite r }

namespace Machine

/-- The machine in whose store some cells hold something else. -/
def overwrite (m : Machine) (r : Cell → Option (Bindings Value)) : Machine :=
  ⟨m.state.overwrite r, m.control⟩

/-- Everything is compared but the cells of a state that cannot be reached. -/
def reached (s : State) (r : Cell → Option (Bindings Value)) : Comparison where
  toLikeness := .same
  cell c := s.store.Has c → s.store.Reaches s.env c
  left := s.store.contents
  right := (s.store.overwrite r).contents
  printed := #[]
  more := []

theorem exact_reached (s : State) (r : Cell → Option (Bindings Value)) :
    (reached s r).toLikeness.Exact := Likeness.exact_same

variable {s : State} {r : Cell → Option (Bindings Value)}

/-- A cell that is not compared cannot be reached, and one that holds something else is not
compared. -/
theorem not_compared {c : Cell} (h : ¬ (reached s r).cell c) :
    s.store.Has c ∧ ¬ s.store.Reaches s.env c :=
  ⟨Classical.byContradiction fun hs => h fun hh => absurd hh hs, fun hr => h fun _ => hr⟩

variable (hr : ∀ c, (r c).isSome = true → s.store.Has c ∧ ¬ s.store.Reaches s.env c)

include hr

theorem kept_of_compared {c : Cell} (hc : (reached s r).cell c) : r c = none := by
  cases h : r c with
  | none => rfl
  | some b =>
    obtain ⟨hhas, hreach⟩ := hr c (by rw [h]; rfl)
    exact absurd (hc hhas) hreach

/-- The state with other contents where they cannot be reached is like the state itself. -/
theorem like_overwrite : s.Like (reached s r) (s.overwrite r) := by
  have hsize := Store.size_overwrite s.store r
  refine ⟨⟨hsize.1, hsize.2, rfl, fun c hc => ?_, fun c _ => ⟨rfl, rfl⟩,
    fun c hc hhas => absurd hhas hc⟩, rfl, fun f hf _ => .chain hf, rfl, ?_, ?_, rfl⟩
  · by_cases hhas : s.store.Has c
    · show Bindings.Like _ _ ((s.store.overwrite r).contents c)
      rw [Store.contents_overwrite r hhas, kept_of_compared hr hc, Option.getD_none]
      refine .of_mem fun p hp => Value.like_refl (fun f _ => f.decl.like_refl fun _ _ => rfl)
        fun d hd _ => ?_
      exact .held (hc hhas) hp hd
    · have hhas' : ¬ (s.store.overwrite r).Has c := fun h => hhas (Store.has_overwrite.1 h)
      show Bindings.Like _ _ ((s.store.overwrite r).contents c)
      rw [Store.contents_of_not_has hhas, Store.contents_of_not_has hhas']
      exact .empty
  · rintro id _ rfl
    rfl
  · exact Array.empty_append.symm

/-- Stores that are like each other differ in what was different at the start. -/
theorem store_overwrite {t t' : Store} (h : t.Like (reached s r) t') : t' = t.overwrite r := by
  obtain ⟨hframes, hobjects⟩ := Store.size_overwrite t r
  refine Store.ext_contents (h.frames.trans hframes.symm) (h.objects.trans hobjects.symm) h.stamp
    fun c hc => ?_
  rw [Store.contents_overwrite r (Store.has_overwrite.1 hc)]
  by_cases hcell : (reached s r).cell c
  · rw [kept_of_compared hr hcell, Option.getD_none]
    exact (h.compared c hcell).eq (Value.Like.eq (exact_reached s r))
  · obtain ⟨hleft, hright⟩ := h.other c hcell
    rw [hleft, hright]
    exact Store.contents_overwrite r (not_compared hcell).1

omit hr

/-- However far a statement has been executed, the cells that existed and could not be reached hold
what they held. With anything else in them the machine has the same to do and is in the same state
but for their contents. -/
theorem confined (s : State) (stmt : Stmt) (r : Cell → Option (Bindings Value))
    (hr : ∀ c, (r c).isSome = true → s.store.Has c ∧ ¬ s.store.Reaches s.env c) (n : Nat) :
    (ofStmt (s.overwrite r) stmt).run n = ((ofStmt s stmt).run n).overwrite r ∧
    ∀ c, s.store.Has c → ¬ s.store.Reaches s.env c →
      ((ofStmt s stmt).run n).state.store.contents c = s.store.contents c := by
  have hstart : Alike (reached s r) (ofStmt s stmt) (ofStmt (s.overwrite r) stmt) :=
    ⟨like_overwrite hr, .exec (stmt.like_refl fun _ _ => rfl) .bottom⟩
  obtain ⟨hstate, hcontrol⟩ := hstart.run n (.inl rfl)
  have hdistances : ((ofStmt (s.overwrite r) stmt).run n).state.distances =
      ((ofStmt s stmt).run n).state.distances := by
    rw [distances_run, distances_run]
    rfl
  refine ⟨?_, fun c hhas hreach => (hstate.store.other c fun hc => hreach (hc hhas)).1⟩
  generalize (ofStmt s stmt).run n = m at *
  generalize (ofStmt (s.overwrite r) stmt).run n = m' at *
  obtain ⟨⟨store, env, depth, distances, output, time⟩, control⟩ := m
  obtain ⟨⟨store', env', depth', distances', output', time'⟩, control'⟩ := m'
  cases hstate.env
  cases hstate.depth
  cases hdistances
  cases hstate.time
  cases hstate.output.trans Array.empty_append
  cases store_overwrite hr hstate.store
  cases hcontrol.eq (exact_reached s r) rfl
  rfl

/-- A state with a frame, number 1, that the globals do not lead to. -/
def spareFrame : State :=
  (State.initial fun _ => 0).modifyStore fun store =>
    (store.addFrame (Bindings.empty.set "x" (.bool true))).2

theorem reaches_spareFrame {c : Cell} (h : spareFrame.store.Reaches globals c) : c = .frame 0 := by
  induction h with
  | chain hf => exact congrArg Cell.frame (List.mem_singleton.1 hf)
  | @held c d name v _ hmem hd ih =>
    subst ih
    have hclock : (name, v) = (clock.name, .callable (.native clock)) := List.mem_singleton.1 hmem
    cases hclock
    cases hd with
    | frame hf _ => cases hf
    | object ho => cases ho

/-- `{ var y; print true; }` in a state with a frame that cannot be reached, empty or not. -/
theorem confined_spareFrame :
    let emptied (c : Cell) : Option (Bindings Value) := if c = .frame 1 then some .empty else none
    let stmt : Stmt := .block [.var (.identifier "y" 1) none,
      .print (.literal (.bool true))]
    (∀ c, (emptied c).isSome = true → spareFrame.store.Has c ∧ ¬ spareFrame.store.Reaches globals c) ∧
      ((ofStmt spareFrame stmt).run 8).isDone = true ∧
      (ofStmt (spareFrame.overwrite emptied) stmt).run 8 =
        ((ofStmt spareFrame stmt).run 8).overwrite emptied ∧
      ((ofStmt spareFrame stmt).run 8).state.store.contents (.frame 1) =
        Bindings.empty.set "x" (.bool true) := by
  intro emptied stmt
  have hr : ∀ c, (emptied c).isSome = true →
      spareFrame.store.Has c ∧ ¬ spareFrame.store.Reaches globals c := by
    intro c hc
    by_cases h : c = .frame 1
    · subst h
      exact ⟨Nat.lt_succ_self 1, fun h => absurd (reaches_spareFrame h) (by decide)⟩
    · simp [emptied, h] at hc
  obtain ⟨hsame, hkept⟩ := confined spareFrame stmt emptied hr 8
  refine ⟨hr, ?_, hsame, hkept (.frame 1) ?_ ?_⟩
  · decide
  · exact Nat.lt_succ_self 1
  · exact fun h => absurd (reaches_spareFrame h) (by decide)

end Machine

end Lox
