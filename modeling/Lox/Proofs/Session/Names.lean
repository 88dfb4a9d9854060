/-
Names in a session. Whatever a machine evaluates or executes was visited by the
resolver, in this chunk or in an earlier one, and the frames of its environment
are activations of the scopes that were open at this visit (`mirrored`). So a
name that is read is in the frame at the distance that was recorded for it. A
name that is written is there too, unless the assignment stands in the
initializer of the declaration of that very name: then the frame does not have
the name yet, the resolver says nothing, and the assignment fails (`assigned`).
-/
import Lox.Proofs.Session.History

namespace Lox

open Resolution

/-! ## Scopes and frames at a distance -/

theorem Resolution.scope_of_distance? {scopes : List Scope} {name : String} {d : Nat}
    (h : distance? scopes name = some d) :
    ∃ scope, scopes[d]? = some scope ∧ scope.contains name = true := by
  obtain ⟨hlt, hc, -⟩ := List.findIdx?_eq_some_iff_getElem.1 h
  exact ⟨scopes[d], List.getElem?_eq_getElem hlt, hc⟩

theorem Resolution.isPending_iff {r : Resolution} {name : String} :
    r.isPending name = true ↔
      ∃ scope outer, r.scopes = scope :: outer ∧ scope.get? name = some .declared := by
  unfold isPending
  split
  next h => simp [h]
  next scope outer h => simp [h]

/-- A name whose declaration is not complete is found in the innermost scope. -/
theorem Resolution.distance?_of_isPending {r : Resolution} {name : String}
    (h : r.isPending name = true) : distance? r.scopes name = some 0 := by
  obtain ⟨scope, outer, hs, hg⟩ := isPending_iff.1 h
  rw [hs, distance?, List.findIdx?_cons, if_pos (Bindings.contains_of_get? hg)]

/-- The frame at a distance is the activation of the scope at that distance. -/
theorem Mirrors.getElem? {s : Store} {frames : List FrameId} {scopes closings : List Scope}
    (h : Mirrors s frames scopes closings) {d : Nat} {scope : Scope}
    (hd : scopes[d]? = some scope) :
    ∃ frame, frames[d]? = some frame ∧
      ∀ name, scope.get? name = some .defined → (s.frame frame).contains name = true := by
  induction h generalizing d with
  | globals => simp at hd
  | @scope frame _ _ _ _ _ _ hnames _ _ ih =>
    cases d with
    | zero =>
      obtain rfl : _ = scope := Option.some.inj hd
      exact ⟨frame, rfl, hnames⟩
    | succ d => exact ih hd

/-- A name that is neither new nor pending is defined. -/
theorem Site.Steady.defined {e : Expr} {v : Visit} (h : (Site.expr e).Steady v) {name : String}
    (hp : v.resolution.isPending name = false) {d : Nat} {scope : Scope}
    (hd : v.scopes[d]? = some scope) (hc : scope.contains name = true) :
    scope.get? name = some .defined := by
  obtain ⟨standing, hs⟩ := Bindings.contains_iff.1 hc
  rw [hs]
  cases d with
  | zero =>
    cases standing with
    | defined => rfl
    | declared =>
      obtain ⟨outer, hcons⟩ : ∃ outer, v.resolution.scopes = scope :: outer :=
        List.head?_eq_some_iff.1 (List.head?_eq_getElem?.trans hd)
      exact absurd (isPending_iff.2 ⟨scope, outer, hcons, hs⟩) (Bool.eq_false_iff.1 hp)
  | succ d =>
    have hmem : scope ∈ v.scopes.tail := by
      rw [← List.getElem?_tail] at hd
      exact List.mem_of_getElem? hd
    rw [h.complete scope hmem name standing hs]

/-- A scope that has the receiver has had it from its beginning. -/
theorem defined_receiver {scopes closing : List Scope} (hg : Grows scopes closing)
    (hr : List.Forall₂ (Settled receiverName) scopes closing) :
    ∀ scope ∈ scopes, scope.contains receiverName = true →
      scope.get? receiverName = some .defined := by
  induction hg with
  | nil => exact fun scope h => by cases h
  | cons hgrow _ ih =>
    cases hr with
    | cons hfirst hr =>
      exact List.forall_mem_cons.2 ⟨fun hc => hfirst (hgrow _ hc), ih hr⟩

/-- An accepted program reads no name in the initializer of its own declaration. -/
theorem Site.Fine.not_pending {id : NodeId} {name : Token} {v : Visit}
    (h : (Site.expr (.variable id name)).Fine v) : v.resolution.isPending name.lexeme = false := by
  have hc := h.clean
  rw [Site.resolve, Expr.resolve] at hc
  split at hc
  · exact absurd ((reaches_record _ _ _).clean hc) (not_clean_report _ _ _)
  next hp => exact Bool.eq_false_iff.2 hp

/-! ## Look-ups -/

/-- A name that is in the frame at the recorded distance is read. -/
theorem State.lookUp_of_getElem? {s : State} {id : NodeId} {name : Token} {d : Nat} {frame : FrameId}
    {x : Value} (hd : s.distances[id]? = some d) (hf : s.env.chain[d]? = some frame)
    (hx : (s.store.frame frame).get? name.lexeme = some x) : s.lookUp id name = .ok x := by
  have hat : s.store.holderAt? s.env d name.lexeme = some frame := by
    rw [Store.holderAt?, hf, Option.filter_some, if_pos (Bindings.contains_of_get? hx)]
  simp only [State.lookUp, hd, Store.getAt?, hat, Option.bind_eq_bind, Option.bind_some, hx]

theorem State.holder?_of_getElem? {s : State} {id : NodeId} (name : String) {d : Nat}
    {frame : FrameId} (hd : s.distances[id]? = some d) (hf : s.env.chain[d]? = some frame) :
    s.holder? id name = if (s.store.frame frame).contains name then some frame else none := by
  simp only [State.holder?, hd, Store.holderAt?, hf, Option.filter_some]

/-- A name that some frame holds is written there. -/
theorem Machine.step_assign {m : Machine} {x : Value} {id : NodeId} {name : Token}
    {k : Stack .value} (hc : m.control = .value x (.push (.assign id name) k)) {frame : FrameId}
    (h : m.state.holder? id name.lexeme = some frame) :
    m.step = ⟨m.state.modifyStore fun store => store.setVar frame name.lexeme x, .value x k⟩ := by
  obtain ⟨s, c⟩ := m
  obtain rfl : c = _ := hc
  have h : s.holder? id name.lexeme = some frame := h
  simp only [Machine.step, Machine.serveValue, Machine.assign, h]

/-- A name that no frame holds cannot be written. -/
theorem Machine.step_assign_undefined {m : Machine} {x : Value} {id : NodeId} {name : Token}
    {k : Stack .value} (hc : m.control = .value x (.push (.assign id name) k))
    (h : m.state.holder? id name.lexeme = none) :
    m.step = ⟨m.state, .raise (undefinedVariable name) k⟩ := by
  obtain ⟨s, c⟩ := m
  obtain rfl : c = _ := hc
  have h : s.holder? id name.lexeme = none := h
  simp only [Machine.step, Machine.serveValue, Machine.assign, h]

namespace Session

variable {readings : Nat → Int64} {m : Machine} {chunks : List Chunk}

/-- What is executed was visited with the scopes that the environment mirrors. -/
theorem Moment.at_exec (h : Moment readings m chunks) {stmt : Stmt} {k : Stack .flow}
    (hc : m.control = .exec stmt k) : ∃ v, VisitedIn chunks (.stmt stmt) v ∧
      Mirrors m.state.store m.state.env.chain v.scopes v.closing := by
  obtain ⟨labels, hstore, hfits⟩ := h.inPlace
  obtain ⟨s, c⟩ := m
  obtain rfl : c = .exec stmt k := hc
  obtain ⟨v, hv, ha, -⟩ := hfits
  exact ⟨v, hv, ha.follows.mirrors hstore⟩

/-- What is evaluated was visited with the scopes that the environment mirrors. -/
theorem Moment.at_eval (h : Moment readings m chunks) {e : Expr} {k : Stack .value}
    (hc : m.control = .eval e k) : ∃ v, VisitedIn chunks (.expr e) v ∧
      Mirrors m.state.store m.state.env.chain v.scopes v.closing := by
  obtain ⟨labels, hstore, hfits⟩ := h.inPlace
  obtain ⟨s, c⟩ := m
  obtain rfl : c = .eval e k := hc
  obtain ⟨v, hv, ha, -⟩ := hfits
  exact ⟨v, hv, ha.follows.mirrors hstore⟩

/-- The assignment that waits for a value was visited with the scopes that the environment mirrors
when the value is there. -/
theorem Moment.at_assign (h : Moment readings m chunks) {x : Value} {id : NodeId} {name : Token}
    {k : Stack .value} (hc : m.control = .value x (.push (.assign id name) k)) :
    ∃ e v, VisitedIn chunks (.expr (.assign id name e)) v ∧
      Mirrors m.state.store m.state.env.chain v.scopes v.closing ∧
      ∀ scope, v.scopes.head? = some scope → ∀ n,
        (m.state.store.frame m.state.env.frame).contains n = true →
          scope.get? n = some .defined := by
  obtain ⟨labels, hstore, hfits⟩ := h.inPlace
  obtain ⟨s, c⟩ := m
  obtain rfl : c = .value x (.push (.assign id name) k) := hc
  obtain ⟨p, -, ha, hk⟩ := hfits
  obtain ⟨e, ⟨v, hv, rfl⟩⟩ : ∃ e,
      Layout.At ⟨VisitedIn chunks, labels⟩ (.expr (.assign id name e)) p := by
    generalize s.env = env at hk
    cases hk with
    | assign he => exact ⟨_, he⟩
  exact ⟨e, v, hv, ha.follows.mirrors hstore, ha.exact⟩

/-- The number of a reference is one of those in its expression. -/
theorem mem_ids_of_refersTo {e : Expr} {id : NodeId} {name : Token} (he : e.refersTo id name) :
    id ∈ (Site.expr e).ids := by
  cases e <;> first | exact he.elim | (obtain ⟨rfl, -⟩ := he; exact List.mem_cons_self ..)

/-- What a chunk recorded for a reference is what its visit gives. -/
theorem Moment.distance (h : Moment readings m chunks) {c : Chunk} (hc : c ∈ chunks) {e : Expr}
    {v : Visit} (hv : Visited c.program c.distances (.expr e) v) {id : NodeId} {name : Token}
    (he : e.refersTo id name) :
    m.state.distances[id]? = distance? v.scopes name.lexeme := by
  have ha := h.accepted c hc
  rw [h.recorded hc (hv.ids.subset (mem_ids_of_refersTo he))]
  exact hv.recorded ha.nodup ha.fresh ha.proper ha.clean he

/-- A name that is read where it is defined is in the frame at the recorded distance. -/
theorem found_of_defined {s : State} {id : NodeId} {name : Token} {d : Nat} {v : Visit}
    (hm : Mirrors s.store s.env.chain v.scopes v.closing) (hd : s.distances[id]? = some d)
    {scope : Scope} (hs : v.scopes[d]? = some scope)
    (hdef : scope.get? name.lexeme = some .defined) :
    ∃ frame x, s.env.chain[d]? = some frame ∧
      (s.store.frame frame).get? name.lexeme = some x ∧ s.lookUp id name = .ok x := by
  obtain ⟨frame, hframe, hnames⟩ := hm.getElem? hs
  obtain ⟨x, hx⟩ := Bindings.contains_iff.1 (hnames _ hdef)
  exact ⟨frame, x, hframe, hx, State.lookUp_of_getElem? hd hframe hx⟩

/-- A node of the receiver has its name. -/
theorem receiver_name {c : Chunk} (ha : c.Accepted) {id : NodeId} {keyword : Token} {v : Visit}
    (hv : Visited c.program c.distances (.expr (.this id keyword)) v) :
    keyword.lexeme = receiverName :=
  (ha.spelled ⟨.receiver, id, keyword⟩ (hv.references.subset (List.mem_singleton.2 rfl))).1 rfl

/-- What is read is defined in the scope that the resolver found. -/
theorem defined_of_read {c : Chunk} (ha : c.Accepted) {e : Expr} {v : Visit}
    (hv : Visited c.program c.distances (.expr e) v) {id : NodeId} {name : Token}
    (he : e = .variable id name ∨ e = .this id name) {d : Nat}
    (hd : distance? v.scopes name.lexeme = some d) :
    ∃ scope, v.scopes[d]? = some scope ∧ scope.get? name.lexeme = some .defined := by
  have hfine := hv.fine ha.proper ha.clean
  have hsteady := hv.steady ha.proper ha.clean
  obtain ⟨scope, hs, hc⟩ := scope_of_distance? hd
  refine ⟨scope, hs, ?_⟩
  rcases he with rfl | rfl
  · exact hsteady.defined hfine.not_pending hs hc
  · rw [receiver_name ha hv] at hc ⊢
    exact defined_receiver hfine.before_expr hsteady.receiver scope (List.mem_of_getElem? hs) hc

/-- Whatever is evaluated or executed in a session was visited by the resolver in some accepted
chunk, and the frames from the environment outward, up to that of the globals, are activations of the
scopes that were open at this visit. If a distance was recorded for a name that is read, the frame at
this distance is the activation of the scope that the resolver found, and it has the name. -/
theorem Moment.mirrored (h : Moment readings m chunks) :
    (∀ stmt k, m.control = .exec stmt k → ∃ v, VisitedIn chunks (.stmt stmt) v ∧
      Mirrors m.state.store m.state.env.chain v.scopes v.closing) ∧
    ∀ e k, m.control = .eval e k → ∃ v, VisitedIn chunks (.expr e) v ∧
      Mirrors m.state.store m.state.env.chain v.scopes v.closing ∧
      ∀ id name, e = .variable id name ∨ e = .this id name →
        m.state.distances[id]? = distance? v.scopes name.lexeme ∧
        ∀ d, m.state.distances[id]? = some d → ∃ scope frame x,
          v.scopes[d]? = some scope ∧ scope.get? name.lexeme = some .defined ∧
          m.state.env.chain[d]? = some frame ∧
          (m.state.store.frame frame).get? name.lexeme = some x ∧
          m.step = ⟨m.state, .value x k⟩ := by
  refine ⟨fun stmt k hc => h.at_exec hc, fun e k hc => ?_⟩
  · obtain ⟨v, hv, hm⟩ := h.at_eval hc
    obtain ⟨s, c⟩ := m
    obtain rfl : c = .eval e k := hc
    refine ⟨v, hv, hm, fun id name he => ?_⟩
    obtain ⟨chunk, hchunk, hv⟩ := hv
    have hrefers : e.refersTo id name := by rcases he with rfl | rfl <;> exact ⟨rfl, rfl⟩
    have hdistance := h.distance hchunk hv hrefers
    refine ⟨hdistance, fun d hd => ?_⟩
    obtain ⟨scope, hs, hdef⟩ :=
      defined_of_read (h.accepted chunk hchunk) hv he (hdistance.symm.trans hd)
    obtain ⟨frame, x, hframe, hx, hlook⟩ := found_of_defined hm hd hs hdef
    refine ⟨scope, frame, x, hs, hdef, hframe, hx, ?_⟩
    have hresult : Control.ofResult (s.lookUp id name) k = .value x k := by rw [hlook]; rfl
    rcases he with rfl | rfl <;> exact congrArg (Machine.mk s) hresult

/-- The machine that has taken `n` steps with a source in a new session. -/
def onlyChunk (source : List UInt8) (n : Nat) : Machine :=
  let s := Session.initial fun _ => 0
  (Machine.ofProgram (s.resolved source).state (s.chunk source).program).run n

/-- A name without a distance is read in the nearest frame that has it. -/
theorem lookUp_onlyChunk {source : List UInt8} {n : Nat} {id : NodeId} {name : Token} {x : Value}
    (hd : ((Session.initial fun _ => 0).chunk source).resolution.distances[id]? = none)
    (hx : (onlyChunk source n).state.store.get? (onlyChunk source n).state.env name.lexeme =
      some x) : (onlyChunk source n).state.lookUp id name = .ok x := by
  have hnone : (onlyChunk source n).state.distances[id]? = none := by
    rw [show (onlyChunk source n).state.distances = _ from Machine.distances_run _ n]
    exact hd
  rw [State.lookUp, hnone]
  simp only [hx]

/-- A machine that only evaluates a name carries on with its value. -/
theorem onlyChunk_succ {source : List UInt8} {n : Nat} {id : NodeId} {name : Token} {x : Value}
    {k : Stack .value} (hc : (onlyChunk source n).control = .eval (.variable id name) k)
    (hx : (onlyChunk source n).state.lookUp id name = .ok x) (more : Nat) :
    onlyChunk source (n + 1 + more) = Machine.run more ⟨(onlyChunk source n).state, .value x k⟩ := by
  have hstep : (onlyChunk source n).step = ⟨(onlyChunk source n).state, .value x k⟩ := by
    have hsplit := congrArg (Machine.mk (onlyChunk source n).state) hc
    rw [show onlyChunk source n = _ from hsplit, Machine.step, Machine.eval, hx]
    rfl
  rw [← hstep, ← Machine.run_succ, onlyChunk, Nat.add_assoc, Machine.run_add, Nat.add_comm 1 more]
  rfl

/-- `{ var a; a; }`, where the second `a` is about to be evaluated after six steps. -/
def readLocal : List UInt8 := Utf8.encode "{ var a; a; }"

theorem mirrored_readLocal : ∃ name k v scope frame x,
    Moment (fun _ => 0) (onlyChunk readLocal 6) [(Session.initial fun _ => 0).chunk readLocal] ∧
      (onlyChunk readLocal 6).control = .eval (.variable 0 name) k ∧
      VisitedIn [(Session.initial fun _ => 0).chunk readLocal] (.expr (.variable 0 name)) v ∧
      v.scopes[0]? = some scope ∧ scope.get? name.lexeme = some .defined ∧
      (onlyChunk readLocal 6).state.env.chain[0]? = some frame ∧
      ((onlyChunk readLocal 6).state.store.frame frame).get? name.lexeme = some x ∧
      (onlyChunk readLocal 6).step = ⟨(onlyChunk readLocal 6).state, .value x k⟩ := by
  have hload : ((Session.initial fun _ => 0).load readLocal).2 =
      .ready (onlyChunk readLocal 0) := by with_unfolding_all rfl
  have hmoment : Moment (fun _ => 0) (onlyChunk readLocal 6)
      [(Session.initial fun _ => 0).chunk readLocal] := .intro 6 .initial hload
  have hcontrol : (onlyChunk readLocal 6).control = .eval (.variable 0 (.identifier "a" 1))
      (.push .discard (.push (.block [] globals) (.push (.program []) .bottom))) := by
    with_unfolding_all rfl
  have hdistances : (onlyChunk readLocal 6).state.distances =
      (∅ : Std.HashMap NodeId Nat).insert 0 0 := by with_unfolding_all rfl
  have hd : (onlyChunk readLocal 6).state.distances[(0 : NodeId)]? = some 0 := by
    rw [hdistances, Std.HashMap.getElem?_insert_self]
  obtain ⟨v, hv, -, hread⟩ := hmoment.mirrored.2 _ _ hcontrol
  obtain ⟨scope, frame, x, hs, hdef, hframe, hx, hstep⟩ := (hread _ _ (.inl rfl)).2 0 hd
  exact ⟨_, _, v, scope, frame, x, hmoment, hcontrol, hv, hs, hdef, hframe, hx, hstep⟩

/-- An assignment whose distance was recorded writes the frame at this distance, which has the name,
unless it stands in the initializer of the declaration of this name in the innermost scope. There the
frame does not have the name yet, and the assignment fails. -/
theorem Moment.assigned (h : Moment readings m chunks) {x : Value} {id : NodeId} {name : Token}
    {k : Stack .value} (hc : m.control = .value x (.push (.assign id name) k)) :
    ∃ e v, VisitedIn chunks (.expr (.assign id name e)) v ∧
      Mirrors m.state.store m.state.env.chain v.scopes v.closing ∧
      m.state.distances[id]? = distance? v.scopes name.lexeme ∧
      ∀ d, m.state.distances[id]? = some d → ∃ frame, m.state.env.chain[d]? = some frame ∧
        (v.resolution.isPending name.lexeme = false →
          (m.state.store.frame frame).contains name.lexeme = true ∧
          m.step = ⟨m.state.modifyStore fun store => store.setVar frame name.lexeme x,
            .value x k⟩) ∧
        (v.resolution.isPending name.lexeme = true →
          d = 0 ∧ (m.state.store.frame frame).contains name.lexeme = false ∧
          m.step = ⟨m.state, .raise (undefinedVariable name) k⟩) := by
  obtain ⟨e, v, hv, hm, hexact⟩ := h.at_assign hc
  obtain ⟨s, c⟩ := m
  obtain rfl : c = .value x (.push (.assign id name) k) := hc
  refine ⟨e, v, hv, hm, ?_⟩
  obtain ⟨chunk, hchunk, hv⟩ := hv
  have haccepted := h.accepted chunk hchunk
  have hdistance := h.distance hchunk hv ⟨rfl, rfl⟩
  refine ⟨hdistance, fun d hd => ?_⟩
  obtain ⟨scope, hs, hcontains⟩ := scope_of_distance? (hdistance.symm.trans hd)
  obtain ⟨frame, hframe, hnames⟩ := hm.getElem? hs
  have hholder := State.holder?_of_getElem? name.lexeme hd hframe
  refine ⟨frame, hframe, fun hp => ?_, fun hp => ?_⟩
  · have hdef := (hv.steady haccepted.proper haccepted.clean).defined hp hs hcontains
    have hheld := hnames _ hdef
    rw [hheld, if_pos rfl] at hholder
    exact ⟨hheld, Machine.step_assign rfl hholder⟩
  · obtain ⟨inner, outer, hscopes, hpending⟩ := isPending_iff.1 hp
    obtain rfl : d = 0 := Option.some.inj ((hdistance.symm.trans hd).symm.trans
      (distance?_of_isPending hp))
    obtain rfl : s.env.frame = frame := Option.some.inj hframe
    have hheld : (s.store.frame s.env.frame).contains name.lexeme = false := by
      refine Bool.eq_false_iff.2 fun hheld => ?_
      have hdef := hexact inner (congrArg List.head? hscopes) _ hheld
      rw [hpending] at hdef
      cases hdef
    rw [hheld, if_neg Bool.false_ne_true] at hholder
    exact ⟨rfl, hheld, Machine.step_assign_undefined rfl hholder⟩

/-- `{ var a; a = nil; }`, where `a` is about to be written after eight steps. -/
def writeLocal : List UInt8 := Utf8.encode "{ var a; a = nil; }"

theorem assigned_writeLocal : ∃ name k,
    Moment (fun _ => 0) (onlyChunk writeLocal 8) [(Session.initial fun _ => 0).chunk writeLocal] ∧
      (onlyChunk writeLocal 8).control = .value .nil (.push (.assign 1 name) k) ∧
      (onlyChunk writeLocal 8).step =
        ⟨(onlyChunk writeLocal 8).state.modifyStore fun store => store.setVar 1 name.lexeme .nil,
          .value .nil k⟩ := by
  have hload : ((Session.initial fun _ => 0).load writeLocal).2 =
      .ready (onlyChunk writeLocal 0) := by with_unfolding_all rfl
  have hmoment : Moment (fun _ => 0) (onlyChunk writeLocal 8)
      [(Session.initial fun _ => 0).chunk writeLocal] := .intro 8 .initial hload
  have hcontrol : (onlyChunk writeLocal 8).control = .value .nil (.push (.assign 1 (.identifier "a" 1))
      (.push .discard (.push (.block [] globals) (.push (.program []) .bottom)))) := by
    with_unfolding_all rfl
  have hdistances : (onlyChunk writeLocal 8).state.distances =
      (∅ : Std.HashMap NodeId Nat).insert 1 0 := by with_unfolding_all rfl
  have hd : (onlyChunk writeLocal 8).state.distances[(1 : NodeId)]? = some 0 := by
    rw [hdistances, Std.HashMap.getElem?_insert_self]
  have hheld : ((onlyChunk writeLocal 8).state.store.frame 1).contains "a" = true := by
    with_unfolding_all rfl
  obtain ⟨e, v, -, -, -, hwrite⟩ := hmoment.assigned hcontrol
  obtain ⟨frame, hframe, hdone, hpending⟩ := hwrite 0 hd
  have hinner : (onlyChunk writeLocal 8).state.env.chain[0]? = some 1 := by with_unfolding_all rfl
  obtain rfl : 1 = frame := Option.some.inj (hinner.symm.trans hframe)
  refine ⟨_, _, hmoment, hcontrol, ?_⟩
  cases hp : v.resolution.isPending "a" with
  | false => exact (hdone hp).2
  | true => exact absurd ((hpending hp).2.1.symm.trans hheld) Bool.false_ne_true

/-- `{ var a = (a = nil); }`, where `a` is about to be written after seven steps. -/
def ownInitializer : List UInt8 := Utf8.encode "{ var a = (a = nil); }"

/-- A distance was recorded for the assignment, and yet it fails. -/
theorem assign_ownInitializer : ∃ name k,
    Moment (fun _ => 0) (onlyChunk ownInitializer 7)
        [(Session.initial fun _ => 0).chunk ownInitializer] ∧
      (onlyChunk ownInitializer 7).control = .value .nil (.push (.assign 1 name) k) ∧
      (onlyChunk ownInitializer 7).state.distances[(1 : NodeId)]? = some 0 ∧
      (onlyChunk ownInitializer 7).step =
        ⟨(onlyChunk ownInitializer 7).state, .raise (undefinedVariable name) k⟩ := by
  have hload : ((Session.initial fun _ => 0).load ownInitializer).2 =
      .ready (onlyChunk ownInitializer 0) := by with_unfolding_all rfl
  have hcontrol : (onlyChunk ownInitializer 7).control =
      .value .nil (.push (.assign 1 (.identifier "a" 1)) (.push (.define (.identifier "a" 1))
        (.push (.block [] globals) (.push (.program []) .bottom)))) := by
    with_unfolding_all rfl
  have hdistances : (onlyChunk ownInitializer 7).state.distances =
      (∅ : Std.HashMap NodeId Nat).insert 1 0 := by with_unfolding_all rfl
  have hd : (onlyChunk ownInitializer 7).state.distances[(1 : NodeId)]? = some 0 := by
    rw [hdistances, Std.HashMap.getElem?_insert_self]
  have hframe : (onlyChunk ownInitializer 7).state.env.chain[0]? = some 1 := by
    with_unfolding_all rfl
  have hempty : (onlyChunk ownInitializer 7).state.store.frame 1 = .empty := by
    with_unfolding_all rfl
  refine ⟨_, _, .intro 7 .initial hload, hcontrol, hd, ?_⟩
  have hholder := State.holder?_of_getElem? "a" hd hframe
  rw [hempty] at hholder
  exact Machine.step_assign_undefined hcontrol hholder

end Session

end Lox
