/-
The numbers of nodes over all chunks of a process. Each reading goes on with the
number behind those that the readings before it have used, also those that were
used for nodes that an error left out. So no two references have one number, and a
table of distances that any of the programs were resolved into, in any order, has
for each of them what its own position gives, or nothing.
-/
import Lox.Proofs.Scope.Lexical
import Lox.Proofs.Session.History

namespace Lox

/-! ## Readings one after the other -/

namespace Grammar

/-- The programs that lists of tokens are read as, the numbers of each behind those of the ones
before it. -/
def parseEach (firstId : NodeId) : List (List Token) → List (List Stmt)
  | [] => []
  | tokens :: rest =>
    let parsed := parse tokens firstId
    parsed.statements :: parseEach parsed.nextId rest

/-- The first number that no reading of the lists of tokens has used. -/
def nextIdAfter (firstId : NodeId) (inputs : List (List Token)) : NodeId :=
  inputs.foldl (fun nextId tokens => (parse tokens nextId).nextId) firstId

/-- No number is used twice in all the programs together. -/
theorem span_parseEach (firstId : NodeId) (inputs : List (List Token)) :
    Span firstId (nextIdAfter firstId inputs)
      ((parseEach firstId inputs).flatMap Stmt.allReferences) := by
  induction inputs generalizing firstId with
  | nil => exact .nil (Nat.le_refl firstId)
  | cons tokens rest ih =>
    obtain ⟨-, -, -, hspan⟩ := parse_salvages tokens firstId
    rw [parseEach, List.flatMap_cons]
    exact hspan.append (ih _)

end Grammar

/-- The node at a position in one of the programs refers to a name. -/
structure RefersIn (programs : List (List Stmt)) (i : Nat) (program : List Stmt) (p : Position)
    (e : Expr) (id : NodeId) (name : Token) : Prop where
  read : programs[i]? = some program
  node : (Node.program program).node? p = some (.expr e)
  refers : e.refersTo id name

namespace RefersIn

variable {programs : List (List Stmt)} {i j : Nat} {program program' : List Stmt}
  {p q : Position} {e e' : Expr} {id : NodeId} {name name' : Token}

theorem mem (h : RefersIn programs i program p e id name) :
    id ∈ (Stmt.allReferences program).map Reference.id := by
  obtain ⟨sort, href⟩ := Node.reference?_of_refersTo h.refers
  have hmem : ⟨sort, id, name⟩ ∈ (Node.program program).references :=
    Node.mem_references h.node href
  exact List.mem_map_of_mem hmem

theorem nodup (h : RefersIn programs i program p e id name)
    (hnodup : ((programs.flatMap Stmt.allReferences).map Reference.id).Nodup) :
    ((Stmt.allReferences program).map Reference.id).Nodup := by
  rw [List.map_flatMap] at hnodup
  exact (List.nodup_flatMap.1 hnodup).1 program (List.mem_of_getElem? h.read)

/-- A number is in one program only. -/
theorem index_unique (hnodup : ((programs.flatMap Stmt.allReferences).map Reference.id).Nodup)
    (hi : programs[i]? = some program) (hj : programs[j]? = some program')
    (hid : id ∈ (Stmt.allReferences program).map Reference.id)
    (hid' : id ∈ (Stmt.allReferences program').map Reference.id) : i = j := by
  rw [List.map_flatMap] at hnodup
  have hpairs := List.pairwise_iff_getElem.1 (List.nodup_flatMap.1 hnodup).2
  obtain ⟨hi', rfl⟩ := List.getElem?_eq_some_iff.1 hi
  obtain ⟨hj', rfl⟩ := List.getElem?_eq_some_iff.1 hj
  rcases Nat.lt_trichotomy i j with hlt | heq | hgt
  · exact absurd hid' (hpairs i j hi' hj' hlt hid)
  · exact heq
  · exact absurd hid (hpairs j i hj' hi' hgt hid')

/-- References with one number are one node. -/
theorem unique (h : RefersIn programs i program p e id name)
    (h' : RefersIn programs j program' q e' id name')
    (hnodup : ((programs.flatMap Stmt.allReferences).map Reference.id).Nodup) :
    i = j ∧ p = q := by
  obtain rfl := index_unique hnodup h.read h'.read h.mem h'.mem
  obtain rfl : program = program' := Option.some.inj (h.read.symm.trans h'.read)
  obtain ⟨sort, href⟩ := Node.reference?_of_refersTo h.refers
  obtain ⟨sort', href'⟩ := Node.reference?_of_refersTo h'.refers
  have hids : ((Node.program program).references.map Reference.id).Nodup := h.nodup hnodup
  exact ⟨rfl, Node.position_unique hids h.node h'.node href href' rfl⟩

end RefersIn

/-! ## Tables of distances -/

/-- The distances after some of the programs were resolved one after the other, in this order. -/
def resolveEach (programs : List (List Stmt)) (order : List Nat)
    (distances : Std.HashMap NodeId Nat) : Std.HashMap NodeId Nat :=
  order.foldl (fun distances i => (resolve (programs[i]?.getD []) distances).distances) distances

theorem resolveEach_concat (programs : List (List Stmt)) (order : List Nat) (i : Nat)
    (distances : Std.HashMap NodeId Nat) :
    resolveEach programs (order ++ [i]) distances =
      (resolve (programs[i]?.getD []) (resolveEach programs order distances)).distances :=
  List.foldl_concat ..

theorem resolveEach_shift (program : List Stmt) (programs : List (List Stmt)) (order : List Nat)
    (distances : Std.HashMap NodeId Nat) :
    resolveEach (program :: programs) (order.map (· + 1)) distances =
      resolveEach programs order distances :=
  List.foldl_map

/-- Resolving a program records nothing for the references of another one. -/
theorem RefersIn.resolve_other {programs : List (List Stmt)} {i j : Nat} {program : List Stmt}
    {p : Position} {e : Expr} {id : NodeId} {name : Token}
    (h : RefersIn programs i program p e id name)
    (hnodup : ((programs.flatMap Stmt.allReferences).map Reference.id).Nodup) (hij : i ≠ j)
    (distances : Std.HashMap NodeId Nat) :
    (resolve (programs[j]?.getD []) distances).distances[id]? = distances[id]? := by
  refine (Site.stmts (programs[j]?.getD [])).resolve_distances (.start distances) fun hid => ?_
  cases hj : programs[j]? with
  | none =>
    rw [hj] at hid
    cases hid
  | some program' =>
    rw [hj] at hid
    exact hij (index_unique hnodup h.read hj h.mem hid)

/-- What is found for a reference was recorded for it, when its own program was resolved. -/
theorem RefersIn.resolveEach_iff {programs : List (List Stmt)} {i : Nat} {program : List Stmt}
    {p : Position} {e : Expr} {id : NodeId} {name : Token}
    (h : RefersIn programs i program p e id name)
    (hnodup : ((programs.flatMap Stmt.allReferences).map Reference.id).Nodup)
    (order : List Nat) (d : Nat) :
    (resolveEach programs order ∅)[id]? = some d ↔
      i ∈ order ∧ (Node.program program).AtDistance p e name d := by
  induction order using List.reverseRecOn generalizing d with
  | nil => simp [resolveEach]
  | append_singleton order j ih =>
    rw [resolveEach_concat, List.mem_append, List.mem_singleton]
    by_cases hij : i = j
    · -- Resolved once more, the program gives what it gave before.
      subst hij
      rw [h.read, Option.getD_some, Node.recorded_or (h.nodup hnodup) h.node h.refers, ih]
      constructor
      · rintro (hd | ⟨hnone, -, hd⟩)
        · exact ⟨.inr rfl, hd⟩
        · exact absurd hd (hnone d)
      · exact fun hd => .inl hd.2
    · rw [h.resolve_other hnodup hij, ih, or_iff_left hij]

/-- No two references of all the programs that were read have one number. Whichever of the programs
were resolved, and in whatever order, the distance that is found for a reference is that from its
own position, if its program is among them, and none is found otherwise. -/
theorem references_apart (inputs : List (List Token)) (firstId : NodeId) :
    let programs := Grammar.parseEach firstId inputs
    (∀ i j program program' p q e e' id name name',
      RefersIn programs i program p e id name → RefersIn programs j program' q e' id name' →
        i = j ∧ p = q) ∧
    ∀ order i program p e id name, RefersIn programs i program p e id name → ∀ d,
      (resolveEach programs order ∅)[id]? = some d ↔
        i ∈ order ∧ (Node.program program).AtDistance p e name d := by
  intro programs
  have hnodup := (Grammar.span_parseEach firstId inputs).nodup
  exact ⟨fun _ _ _ _ _ _ _ _ _ _ _ h h' => h.unique h' hnodup,
    fun order _ _ _ _ _ _ h d => h.resolveEach_iff hnodup order d⟩

/-- `{ var a; a; } +;` and behind it `{ var a; print a; }` -/
def brokenThenWhole : List (List Token) :=
  [(Source.scan (Utf8.encode "\x7b var a; a; \x7d +;")).tokens,
    (Source.scan (Utf8.encode "\x7b var a; print a; \x7d")).tokens]

theorem parseEach_brokenThenWhole : Grammar.parseEach 0 brokenThenWhole =
    [[.block [.var (.identifier "a" 1) none, .expression (.variable 0 (.identifier "a" 1))]],
      [.block [.var (.identifier "a" 1) none, .print (.variable 1 (.identifier "a" 1))]]] := by
  with_unfolding_all rfl

/-- The second program is resolved, the first one is not, and the references to `a` at one position
of both have each a number of their own. -/
theorem references_apart_brokenThenWhole :
    let programs := Grammar.parseEach 0 brokenThenWhole
    let program := programs[0]?.getD []
    let program' := programs[1]?.getD []
    let a := Token.identifier "a" 1
    RefersIn programs 0 program [0, 1, 0] (.variable 0 a) 0 a ∧
      RefersIn programs 1 program' [0, 1, 0] (.variable 1 a) 1 a ∧
      (resolveEach programs [1] ∅)[0]? = none ∧ (resolveEach programs [1] ∅)[1]? = some 0 ∧
      (Node.program program').AtDistance [0, 1, 0] (.variable 1 a) a 0 := by
  obtain ⟨-, hfound⟩ := references_apart brokenThenWhole 0
  rw [parseEach_brokenThenWhole] at hfound ⊢
  intro programs program program' a
  have h : RefersIn programs 0 program [0, 1, 0] (.variable 0 a) 0 a := ⟨rfl, rfl, rfl, rfl⟩
  have h' : RefersIn programs 1 program' [0, 1, 0] (.variable 1 a) 1 a := ⟨rfl, rfl, rfl, rfl⟩
  have hnone : (resolveEach programs [1] ∅)[0]? = none := by
    rw [Option.eq_none_iff_forall_ne_some]
    exact fun d hd => absurd ((hfound [1] 0 _ _ _ _ _ h d).1 hd).1 (by decide)
  have hsome : (resolveEach programs [1] ∅)[1]? = some 0 := by
    have htable : resolveEach programs [1] ∅ = (∅ : Std.HashMap NodeId Nat).insert 1 0 := by
      with_unfolding_all rfl
    rw [htable, Std.HashMap.getElem?_insert_self]
  exact ⟨h, h', hnone, hsome, ((hfound [1] 1 _ _ _ _ _ h' 0).1 hsome).2⟩

/-! ## Sessions -/

namespace Session

/-- The tokens of chunks. -/
def tokensOf (sources : List (List UInt8)) : List (List Token) :=
  sources.map fun source => (Source.scan source).tokens

/-- A chunk costs the numbers of its nodes, and its program was resolved or not. -/
theorem run_numbering {fuel : Nat} {s s' : Session} {source : List UInt8} {report : Report}
    (h : s.run fuel source = some (report, s')) :
    s'.nextId = (Reading.ofSource source s.nextId).nextId ∧
      (s'.state.distances = s.state.distances ∨
        s'.state.distances = (s.chunk source).resolution.distances) := by
  cases hl : (s.load source).2 with
  | rejected errors =>
    rw [run_of_rejected hl] at h
    obtain ⟨-, rfl⟩ := Prod.mk.inj (Option.some.inj h)
    rcases load_rejected hl with hs | ⟨-, hs⟩
    · rw [hs]
      exact ⟨rfl, .inl rfl⟩
    · rw [hs]
      exact ⟨rfl, .inr rfl⟩
  | ready m =>
    obtain ⟨o, -, -, rfl⟩ := ended_of_run hl h
    obtain ⟨-, -, -, rfl⟩ := load_ready hl
    exact ⟨rfl, .inr (Machine.distances_run _ fuel)⟩

/-- The numbers and the table of a session are those of its chunks read one after the other. -/
theorem runAll_numbering {fuel : Nat} {s s' : Session} {sources : List (List UInt8)}
    {reports : List Report} (h : s.runAll fuel sources = some (reports, s')) :
    s'.nextId = Grammar.nextIdAfter s.nextId (tokensOf sources) ∧
      ∃ order, s'.state.distances =
        resolveEach (Grammar.parseEach s.nextId (tokensOf sources)) order s.state.distances := by
  induction sources generalizing s reports with
  | nil =>
    obtain ⟨-, rfl⟩ := Prod.mk.inj (Option.some.inj h)
    exact ⟨rfl, [], rfl⟩
  | cons source rest ih =>
    rw [runAll] at h
    obtain ⟨⟨report, s₁⟩, hrun, h⟩ := Option.bind_eq_some_iff.1 h
    obtain ⟨⟨reports', s₂⟩, hrest, h⟩ := Option.bind_eq_some_iff.1 h
    obtain ⟨-, rfl⟩ := Prod.mk.inj (Option.some.inj h)
    obtain ⟨hnext, order, horder⟩ := ih hrest
    obtain ⟨hid, hdistances⟩ := run_numbering hrun
    rw [hid] at hnext horder
    refine ⟨hnext, ?_⟩
    rw [horder]
    rcases hdistances with hd | hd
    · exact ⟨order.map (· + 1), by rw [hd]; exact (resolveEach_shift ..).symm⟩
    · exact ⟨0 :: order.map (· + 1), by rw [hd]; exact (resolveEach_shift ..).symm⟩

end Session

end Lox
