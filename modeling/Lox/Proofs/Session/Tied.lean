/-
Functions and their receivers. A function is tied to an instance when it is a
method that was bound to it, or was declared in the body of a function that is
tied to it (`Phase.Tied`). The instance stays the receiver of the function for
good (`Tied.receiver?`), so every reference to the receiver in the body gives this
one, in whatever chunk the body runs, and an initializer yields it.
-/
import Lox.Proofs.Machine.Calls
import Lox.Proofs.Session.Agreement
import Lox.Proofs.Session.Course

namespace Lox

/-! ## References to the receiver -/

/-- A reference to the receiver gives the one in the environment. -/
theorem Session.Moment.step_this {readings : Nat → Int64} {m : Machine} {chunks : List Chunk}
    (h : Moment readings m chunks) {id : NodeId} {keyword : Token} {k : Stack .value}
    (hc : m.control = .eval (.this id keyword) k) {x : Value}
    (hx : m.state.store.receiver? m.state.env = some x) : m.step = ⟨m.state, .value x k⟩ := by
  obtain ⟨v, ⟨c, hchunk, hv⟩, hm⟩ := h.at_eval hc
  have ha := h.accepted c hchunk
  have hname : keyword.lexeme = receiverName := receiver_name ha hv
  have hnearest : m.state.holder? id keyword.lexeme =
      m.state.store.holder? m.state.env keyword.lexeme :=
    h.nearest_of_settled hchunk hv ⟨rfl, rfl⟩ hm (settled_receiver ha hv)
  have hlook : m.state.lookUp id keyword = .ok x := by
    have hread : ((m.state.store.holder? m.state.env receiverName).bind fun f =>
        (m.state.store.frame f).get? receiverName) = some x := hx
    rw [State.lookUp_eq, hnearest, hname, hread]
  obtain ⟨s, c⟩ := m
  obtain rfl : c = _ := hc
  have hstep : Machine.step ⟨s, .eval (.this id keyword) k⟩ =
      ⟨s, .ofResult (s.lookUp id keyword) k⟩ := rfl
  rw [hstep, hlook]
  rfl

namespace Phase

/-- In the course of a session the function was bound to the instance, or declared in the body of a
function that is tied to it. -/
inductive Tied (readings : Nat → Int64) : Phase → Instance → Closure → Prop
  | bound {s m o f} : (Phase.busy s m).Reached readings → m.Binds o f →
    Tied readings (.busy s m.step) o f
  | declared {s m o f decl rest k} : Tied readings (.busy s m) o f →
    m.control = .exec (.function decl) k → k.caller? = some (f, rest) →
    Tied readings (.busy s m.step) o (m.state.store.closure decl m.state.env false).1
  | later {p q o f} : Tied readings p o f → p.Next q → Tied readings q o f

variable {readings : Nat → Int64} {p : Phase} {s : Session} {m : Machine} {o : Instance}
  {f : Closure}

namespace Tied

theorem reached (h : Tied readings p o f) : p.Reached readings := by
  induction h with
  | bound hr => exact hr.tail .step
  | declared _ _ _ ih => exact ih.tail .step
  | later _ hn ih => exact ih.tail hn

/-- A function keeps its receiver. -/
theorem receiver? (h : Tied readings p o f) :
    f.env.In p.store ∧ p.store.receiver? f.env = some (.object o) := by
  induction h with
  | bound hr hb =>
    obtain ⟨chunks, hm⟩ := hr.moment
    obtain ⟨hin, hreceiver, -⟩ := hb.receiver? hm.known
    exact ⟨hin, hreceiver⟩
  | @declared s m o f decl rest k hf hc hcaller ih =>
    obtain ⟨chunks, hm⟩ := hf.reached.moment
    have hkeeps := (Next.step (s := s)).keeps hf.reached
    obtain ⟨host, -, hk⟩ := hm.runs_exec hc
    -- The function is declared inside the environment of the one that runs.
    have hreceiver : m.state.store.receiver? m.state.env = some (.object o) :=
      (hk.receiver?_of_caller? hcaller).trans ih.2
    exact ⟨hkeeps.env_in hk.env_in, (hkeeps.receiver? hk.env_in).trans hreceiver⟩
  | later hf hn ih =>
    have hkeeps := hn.keeps hf.reached
    exact ⟨hkeeps.env_in ih.1, (hkeeps.receiver? ih.1).trans ih.2⟩

/-- A function is tied to one instance only. -/
theorem unique {o' : Instance} (h : Tied readings p o f) (h' : Tied readings p o' f) : o' = o := by
  have hsame := h'.receiver?.2.symm.trans h.receiver?.2
  cases hsame
  rfl

end Tied

/-- Each initializer that exists is tied to an instance. -/
theorem Reached.tied (h : p.Reached readings) (hf : p.Holds (.callable (.closure f)))
    (hi : f.isInit = true) : ∃ o, Tied readings p o f := by
  induction h with
  | refl => cases holds_initial hf
  | tail hr hn ih =>
    rcases hn.holds hf with hf | ⟨s, m, rfl, rfl, hmade⟩
    · obtain ⟨o, ho⟩ := ih hf
      exact ⟨o, ho.later hn⟩
    · cases hmade with
      | plain hp => exact hp.elim
      | bound hb => exact ⟨_, .bound hr hb⟩
      | function => cases hi

/-- For a function that is tied to an instance, every reference to the receiver in its body gives this
instance, whenever it runs. What is bound is an initializer exactly if it is called like one. A call
of an initializer that does not fail yields the only instance that it is tied to. A call of a class
that does not fail yields the new instance, to which its initializer is bound and which differs from
all values that existed up to the call. -/
theorem Reached.receivers (h : (Phase.busy s m).Reached readings) :
    (∀ o f rest k id keyword, Tied readings (.busy s m) o f →
      m.control = .eval (.this id keyword) k → k.caller? = some (f, rest) →
      m.step = ⟨m.state, .value (.object o) k⟩) ∧
    (∀ o f, m.Binds o f → (f.isInit = true ↔ f.decl.name.lexeme = FunctionDecl.initName)) ∧
    (∀ f k, m.control.Calls (.callable (.closure f)) k → f.isInit = true →
      ∃ o, Tied readings (.busy s m) o f ∧ (∀ o', Tied readings (.busy s m) o' f → o' = o) ∧
        ∀ n, m.Returns k n →
          (m.run n).control = .value (.object o) k ∨ ∃ e, (m.run n).control = .raise e k) ∧
    ∀ c k, m.control.Calls (.callable (.class c)) k →
      ∃ o : Instance, o.cls = c ∧ (∀ o' f, m.Binds o' f → o' = o) ∧
        (∀ n, m.Returns k n →
          (m.run n).control = .value (.object o) k ∨ ∃ e, (m.run n).control = .raise e k) ∧
        ∀ (p : Phase) (v : Value), p.Reached readings → p.Leads (.busy s m) → p.Holds v →
          v.equals (.object o) = false := by
  obtain ⟨chunks, hm⟩ := h.moment
  have hW := lawful_visitedIn hm.accepted
  refine ⟨fun o f rest k id keyword hf hc hcaller => ?_, fun o f hb => ?_, fun f k hc hi => ?_,
    fun c k hc => ?_⟩
  · obtain ⟨host, -, hk⟩ := hm.runs_eval hc
    exact hm.step_this hc ((hk.receiver?_of_caller? hcaller).trans hf.receiver?.2)
  · rw [(hb.receiver? hm.known).2.2, FunctionDecl.isInit, beq_iff_eq]
  · obtain ⟨o, hf⟩ := h.tied (.inr hc.mem_values) hi
    refine ⟨o, hf, fun o' hf' => hf.unique hf', fun n hn => hn.init hW hm.known hc hi ?_⟩
    -- The receiver is in the frame of the initializer itself, so it is the one that is found.
    obtain ⟨o', ho'⟩ := (hm.known.all.holds (.inr hc.mem_values)).2 hi
    have hfirst : m.state.store.receiver? f.env = some (.object o') := by
      rw [Store.receiver?, Store.get?_eq_findSome?, Env.chain, List.findSome?_cons, ho']
    rw [ho', ← hfirst]
    exact hf.receiver?.2
  · refine ⟨⟨m.state.store.objects.size, c⟩, rfl, fun o' f hb => hb.eq_new hc,
      fun n hn => hn.class hc, fun p v hp hl hv => ?_⟩
    cases v with
    | object o =>
      have hlt := Nat.lt_of_lt_of_le (hp.object hv) (hl.keeps hp).objects
      exact beq_eq_false_iff_ne.2 (Nat.ne_of_lt hlt)
    | _ => rfl

/-- `class A { init() { this; } } A();`, where `A` is about to be called after six steps, and `this` to
be evaluated three steps later. -/
def ownReference : List UInt8 := Utf8.encode "class A \x7b init() \x7b this; \x7d \x7d A();"

/-- The declaration of `init`. -/
def ownInit : FunctionDecl :=
  .mk (.identifier "init" 1) [] [.expression (.this 0 ⟨.symbol .kwThis, "this", 1⟩)]

/-- The class `A`. -/
def ownClass : Class := ⟨2, "A", Bindings.empty.set "init" ⟨1, ownInit, globals, true⟩⟩

theorem program_ownReference : ((Session.initial fun _ => 0).chunk ownReference).program =
    [.class (.identifier "A" 1) [ownInit],
      .expression (.call (.variable 1 (.identifier "A" 1)) ⟨.symbol .rightParen, ")", 1⟩ [])] := by
  with_unfolding_all rfl

/-- The class is found and about to be called. -/
theorem called_ownReference : Session.onlyChunk ownReference 6 =
    ⟨(Session.onlyChunk ownReference 5).state, .value (.callable (.class ownClass))
      (.push (.callee ⟨.symbol .rightParen, ")", 1⟩ [])
        (.push .discard (.push (.program []) .bottom)))⟩ := by
  have hcontrol : (Session.onlyChunk ownReference 5).control =
      .eval (.variable 1 (.identifier "A" 1)) (.push (.callee ⟨.symbol .rightParen, ")", 1⟩ [])
        (.push .discard (.push (.program []) .bottom))) := by with_unfolding_all rfl
  have hdistances : ((Session.initial fun _ => 0).chunk ownReference).resolution.distances =
      (∅ : Std.HashMap NodeId Nat).insert 0 1 := by
    rw [Chunk.resolution, program_ownReference]
    with_unfolding_all rfl
  have hlook : (Session.onlyChunk ownReference 5).state.lookUp 1 (.identifier "A" 1) =
      .ok (.callable (.class ownClass)) := by
    refine Session.lookUp_onlyChunk ?_ (by with_unfolding_all rfl)
    rw [hdistances]
    simp
  exact Session.onlyChunk_succ hcontrol hlook 0

theorem step_ownReference (n : Nat) :
    (Session.onlyChunk ownReference n).step = Session.onlyChunk ownReference (n + 1) :=
  (Machine.run_last _ n).symm

theorem reached_ownReference (n : Nat) :
    (Phase.busy ((Session.initial fun _ => 0).load ownReference).1
      (Session.onlyChunk ownReference n)).Reached fun _ => 0 := by
  have he : (Reading.ofSource ownReference 0).errors = [] := by with_unfolding_all rfl
  have hclean : ((Session.initial fun _ => 0).chunk ownReference).resolution.Clean := by
    rw [Chunk.resolution, program_ownReference]
    with_unfolding_all rfl
  have hstart : (Phase.idle (.initial fun _ => 0)).Next
      (.busy ((Session.initial fun _ => 0).load ownReference).1
        (Session.onlyChunk ownReference 0)) :=
    .start (Session.load_of_clean he hclean)
  exact .head hstart (leads_run _ (Session.onlyChunk ownReference 0) n)

/-- The initializer of the new instance is tied to it. -/
theorem tied_ownReference : Tied (fun _ => 0)
    (.busy ((Session.initial fun _ => 0).load ownReference).1
      (Session.onlyChunk ownReference 9)) ⟨0, ownClass⟩ ⟨3, ownInit, ⟨1, [0]⟩, true⟩ := by
  have hbinds : (Session.onlyChunk ownReference 6).Binds ⟨0, ownClass⟩
      ⟨3, ownInit, ⟨1, [0]⟩, true⟩ := by
    rw [called_ownReference]
    exact .init .plain (by with_unfolding_all rfl)
  have h7 := Tied.bound (reached_ownReference 6) hbinds
  have h9 := (h7.later .step).later .step
  rwa [step_ownReference, step_ownReference, step_ownReference] at h9

theorem control_ownReference : (Session.onlyChunk ownReference 9).control =
    .eval (.this 0 ⟨.symbol .kwThis, "this", 1⟩) (.push .discard (.push (.block [] globals)
      (.push (.body ⟨3, ownInit, ⟨1, [0]⟩, true⟩) (.push (.construct ⟨0, ownClass⟩)
        (.push .discard (.push (.program []) .bottom)))))) := by
  rw [← step_ownReference, ← step_ownReference, ← step_ownReference, called_ownReference]
  with_unfolding_all rfl

/-- The reference gives the instance, and the call of the class returns. -/
theorem receivers_ownReference : ∃ s f rest k,
    (Phase.busy s (Session.onlyChunk ownReference 9)).Reached (fun _ => 0) ∧
      Tied (fun _ => 0) (.busy s (Session.onlyChunk ownReference 9)) ⟨0, ownClass⟩ f ∧
      k.caller? = some (f, rest) ∧
      (Session.onlyChunk ownReference 9).control =
        .eval (.this 0 ⟨.symbol .kwThis, "this", 1⟩) k ∧
      (Session.onlyChunk ownReference 9).step =
        ⟨(Session.onlyChunk ownReference 9).state, .value (.object ⟨0, ownClass⟩) k⟩ ∧
      ∃ n o k, (Session.onlyChunk ownReference 6).Returns k n ∧ o.cls = ownClass ∧
        (((Session.onlyChunk ownReference 6).run n).control = .value (.object o) k ∨
          ∃ e, ((Session.onlyChunk ownReference 6).run n).control = .raise e k) := by
  have hstep := (reached_ownReference 9).receivers.1 _ _ _ _ _ _ tied_ownReference
    control_ownReference rfl
  have hsplit : (Session.onlyChunk ownReference 6).run 8 =
      (Session.onlyChunk ownReference 9).step.run 4 := by
    simp only [Machine.run_succ, Machine.run_zero, step_ownReference]
  have hlast : ((Session.onlyChunk ownReference 6).run 8).control = .value (.object ⟨0, ownClass⟩)
      (.push .discard (.push (.program []) .bottom)) := by
    rw [hsplit, hstep, ← step_ownReference, ← step_ownReference, ← step_ownReference,
      called_ownReference]
    with_unfolding_all rfl
  have hcalls : (Session.onlyChunk ownReference 6).control.Calls (.callable (.class ownClass))
      (.push .discard (.push (.program []) .bottom)) := by
    rw [called_ownReference]
    exact .plain
  obtain ⟨o, hcls, -, hcall, -⟩ := (reached_ownReference 6).receivers.2.2.2 _ _ hcalls
  obtain ⟨n, -, hn⟩ := Machine.exists_returns (hlast ▸ Control.not_beyond_value _ _)
  exact ⟨_, _, _, _, reached_ownReference 9, tied_ownReference, rfl, control_ownReference, hstep,
    n, o, _, hn, hcls, hcall n hn⟩

end Phase

end Lox
