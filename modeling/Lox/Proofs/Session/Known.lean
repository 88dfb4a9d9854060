/-
What is known in a session. Between chunks all values in the store are known
(`Past.known`), and in the midst of a chunk all that the machine holds is known
and is carried out where it belongs (`Moment.known`).
-/
import Lox.Proofs.Machine.Hosted
import Lox.Proofs.Session.History

namespace Lox

/-- What was visited in accepted chunks writes no receiver. -/
theorem lawful_visitedIn {chunks : List Chunk} (h : ∀ c ∈ chunks, c.Accepted) :
    Layout.Lawful (VisitedIn chunks) := by
  refine ⟨closed_visitedIn h, fun hv hn => ?_⟩
  obtain ⟨c, hc, hv⟩ := hv
  have hspelled := (h c hc).spelled _ (hv.references.subset (List.mem_cons_self ..))
  cases hspelled.2 hn

/-- A program runs outside of all functions. -/
theorem Machine.known_ofProgram {visits : Site → Visit → Prop} {s : State} {program : List Stmt}
    (hs : s.store.Known visits) (he : s.env.In s.store)
    (hp : Hosted visits none (.stmts program)) : (Machine.ofProgram s program).Known visits := by
  refine ⟨hs, none, trivial, .inside (.push trivial ⟨nofun, ?_, rfl⟩ (.bottom he))⟩
  exact List.forall_mem_singleton.2 hp

namespace Session

variable {readings : Nat → Int64} {s : Session} {m : Machine} {chunks : List Chunk}
  {source : List UInt8}

theorem Kept.globals_in (h : s.Kept chunks) : globals.In s.state.store := by
  obtain ⟨labels, hstore⟩ := h.store
  obtain ⟨hlt, -⟩ := List.getElem?_eq_some_iff.1 hstore.globals
  exact List.forall_mem_singleton.2 (hstore.size ▸ hlt)

/-- A machine that starts a chunk in a session whose values are known. -/
theorem Kept.known (hk : s.Kept chunks) (hs : s.state.store.Known (VisitedIn chunks))
    (h : (s.load source).2 = .ready m) : m.Known (VisitedIn (s.chunk source :: chunks)) := by
  obtain ⟨-, -, -, rfl⟩ := load_ready h
  refine Machine.known_ofProgram (hs.mono fun _ _ hv => hv.cons _) ?_ ?_
  · rw [(hk.ready h).env]
    exact (hk.ready h).globals_in
  · exact ⟨_, ⟨_, List.mem_cons_self .., .program⟩, rfl⟩

/-- Between chunks all values are known. -/
theorem Past.known (h : Past readings s chunks) : s.state.store.Known (VisitedIn chunks) := by
  induction h with
  | initial => exact .initial trivial readings
  | rejected _ hl ih =>
    rcases load_rejected hl with hs | ⟨-, hs⟩
    · rw [hs]; exact ih
    · rw [hs]; exact ih
  | ended fuel hp hl he ih =>
    obtain ⟨o, -, -, rfl⟩ := ended_of_run hl he
    have hW := lawful_visitedIn (hp.kept.ready hl).accepted
    exact ((hp.kept.known ih hl).run hW fuel).store

/-- In the midst of a chunk all that the machine holds is known. -/
theorem Moment.known (h : Moment readings m chunks) : m.Known (VisitedIn chunks) := by
  obtain ⟨n, hp, hl⟩ := h
  exact ((hp.kept.known hp.known hl).run (lawful_visitedIn (hp.kept.ready hl).accepted) n).toKnown

/-- What is evaluated is carried out where it belongs. -/
theorem Moment.runs_eval (h : Moment readings m chunks) {e : Expr} {k : Stack .value}
    (hc : m.control = .eval e k) : ∃ host, Hosted (VisitedIn chunks) host (.expr e) ∧
      k.Runs (VisitedIn chunks) m.state.store m.state.env host := by
  have hknown := h.known.control
  rwa [hc] at hknown

/-- What is executed is carried out where it belongs. -/
theorem Moment.runs_exec (h : Moment readings m chunks) {stmt : Stmt} {k : Stack .flow}
    (hc : m.control = .exec stmt k) : ∃ host, Hosted (VisitedIn chunks) host (.stmt stmt) ∧
      k.Runs (VisitedIn chunks) m.state.store m.state.env host := by
  have hknown := h.known.control
  rwa [hc] at hknown

end Session

end Lox
