/-
The code that a machine has to do with. Functions and methods bring theirs along,
and what waits on the stack remembers parts of statements that have begun. Starting
from code that is closed under parts, a machine never comes to any other
(`Machine.Within.run`), and where no operator in it is foreign, none is applied:
`Machine.operators_known` says so of all programs that the parser returns.
-/
import Lox.Proofs.Grammar.Operators
import Lox.Proofs.Machine.Exit
import Lox.Proofs.Machine.Origin
import Lox.Source.Items

namespace Lox

/-- The code has with a node all its parts, and each operator is of the sort of its node. -/
structure Node.Operable (code : Node → Prop) : Prop where
  part : ∀ {n c : Node}, code n → c ∈ n.children → code c
  apt : ∀ {n : Node}, code n → n.Apt

theorem Node.operable_read : Operable Read := ⟨Read.part, Read.apt⟩

/-! ## Values and what waits -/

/-- The body of the function is of this code. -/
def Closure.Within (code : Node → Prop) (f : Closure) : Prop := ∀ s ∈ f.decl.body, code (.stmt s)

def Class.Within (code : Node → Prop) (c : Class) : Prop :=
  ∀ name f, c.methods.get? name = some f → f.Within code

def Value.Within (code : Node → Prop) : Value → Prop
  | .callable (.closure f) => f.Within code
  | .callable (.class c) => c.Within code
  | .object o => o.cls.Within code
  | _ => True

/-- The operator, the code and the values of a waiting computation are of this code. -/
def Waiting.Within (code : Node → Prop) {a b : Yield} : Waiting a b → Prop
  | .unary op => ∃ e, code (.expr (.unary op e))
  | .binaryLeft op right => ∃ left, code (.expr (.binary left op right))
  | .binaryRight v op => v.Within code ∧ ∃ left right, code (.expr (.binary left op right))
  | .logical op right => ∃ left, code (.expr (.logical left op right))
  | .callee _ args => ∀ e ∈ args, code (.expr e)
  | .argument f _ done rest =>
    f.Within code ∧ (∀ v ∈ done, v.Within code) ∧ ∀ e ∈ rest, code (.expr e)
  | .fieldObject _ e => code (.expr e)
  | .fieldValue o _ | .construct o => o.cls.Within code
  | .branch thenPart elsePart => code (.stmt thenPart) ∧ ∀ s ∈ elsePart, code (.stmt s)
  | .loopTest test inner | .loopBody test inner => code (.expr test) ∧ code (.stmt inner)
  | .block rest _ | .program rest => ∀ s ∈ rest, code (.stmt s)
  | _ => True

def Stack.Within (code : Node → Prop) : {a : Yield} → Stack a → Prop
  | _, .bottom => True
  | _, .push w k => w.Within code ∧ k.Within code

/-- The fault is not that of a foreign operator. -/
def RuntimeFault.Foreseen : RuntimeFault → Prop
  | .unknownUnary | .unknownBinary => False
  | _ => True

/-- A value is returned only if it is of this code. -/
def Flow.Within (code : Node → Prop) : Flow → Prop
  | .normal => True
  | .returned v => v.Within code

def Control.Within (code : Node → Prop) : Control → Prop
  | .eval e k => code (.expr e) ∧ k.Within code
  | .exec s k => code (.stmt s) ∧ k.Within code
  | .value v k => v.Within code ∧ k.Within code
  | .flow f k => f.Within code ∧ k.Within code
  | .raise e k => e.fault.Foreseen ∧ k.Within code

/-- All functions in the state are of this code. -/
abbrev State.Within (code : Node → Prop) (s : State) : Prop := s.store.All (Value.Within code)

/-- All that the machine holds is of this code, and it has met no foreign operator. -/
structure Machine.Within (code : Node → Prop) (m : Machine) : Prop where
  state : m.state.Within code
  control : m.control.Within code

variable {code : Node → Prop}

theorem Value.Within.of_plain {v : Value} (h : v.Plain) : v.Within code := by
  cases v with
  | nil | bool | number | string => trivial
  | callable | object => exact h.elim

/-- A function has the body of its declaration. -/
theorem Closure.Within.of_decl (hcode : Node.Operable code) {n : Node} {f : Closure} (hn : code n)
    (h : n = .function f.decl ∨ n = .method f.decl) : f.Within code := by
  intro stmt hmem
  refine hcode.part hn ?_
  obtain ⟨stamp, ⟨name, params, body⟩, env, isInit⟩ := f
  rcases h with rfl | rfl <;> exact List.mem_append_right _ (List.mem_map_of_mem hmem)

/-! ## Operators -/

/-- An operator in front of its operand is found, if it is one. -/
theorem foreseen_unaryOperation {op : Token} {v : Value} {e : RuntimeError}
    (hop : ∃ s ∈ Node.unaryOperators, op.kind = .symbol s) (h : unaryOperation op v = .error e) :
    e.fault.Foreseen := by
  obtain ⟨s, hs, hkind⟩ := hop
  simp only [Node.unaryOperators, List.mem_cons, List.not_mem_nil, or_false] at hs
  unfold unaryOperation at h
  rw [hkind] at h
  rcases hs with rfl | rfl
  · cases h
  · cases v <;> cases h
    all_goals exact trivial

/-- An operator between two numbers that is neither equality nor plus is one of arithmetic or of
comparison. -/
theorem numberOperation_isSome {s : Symbol} (hs : s ∈ Node.binaryOperators)
    (heq : s ≠ .equalEqual) (hne : s ≠ .bangEqual) (hplus : s ≠ .plus) :
    (numberOperation? (.symbol s)).isSome = true := by
  simp only [Node.binaryOperators, List.mem_cons, List.not_mem_nil, or_false] at hs
  rcases hs with rfl | rfl | rfl | rfl | rfl | rfl | rfl | rfl | rfl | rfl
  all_goals first | rfl | contradiction

/-- An operator between its operands is found, if it is one. -/
theorem foreseen_binaryOperation {op : Token} {left right : Value} {e : RuntimeError}
    (hop : ∃ s ∈ Node.binaryOperators, op.kind = .symbol s)
    (h : binaryOperation op left right = .error e) : e.fault.Foreseen := by
  obtain ⟨s, hs, hkind⟩ := hop
  unfold binaryOperation at h
  split at h
  · cases h
  · cases h
  · split at h <;> cases h
    exact trivial
  next heq hne hplus =>
    rw [hkind] at heq hne hplus h
    split at h
    · have hsome := numberOperation_isSome hs (fun he => heq (he ▸ rfl)) (fun he => hne (he ▸ rfl))
        (fun he => hplus (he ▸ rfl))
      split at h
      next => cases h
      next hnone => rw [hnone] at hsome; cases hsome
    · cases h
      exact trivial

theorem RuntimeFault.Foreseen.of_undefinedVariable {f : RuntimeFault} {name : String}
    (h : f = .undefinedVariable name) : f.Foreseen := by
  subst h
  exact trivial

namespace Machine

variable {s : State}

namespace Within

/-! ## Calls -/

theorem ofResult {r : Except RuntimeError Value} {k : Stack .value} (hs : s.Within code)
    (hv : ∀ v, r = .ok v → v.Within code) (hf : ∀ e, r = .error e → e.fault.Foreseen)
    (hk : k.Within code) : Within code ⟨s, .ofResult r k⟩ := by
  cases r with
  | ok v => exact ⟨hs, hv v rfl, hk⟩
  | error e => exact ⟨hs, hf e rfl, hk⟩

theorem lookUp {id : NodeId} {name : Token} {k : Stack .value} (hs : s.Within code)
    (hk : k.Within code) : Within code ⟨s, .ofResult (s.lookUp id name) k⟩ := by
  refine .ofResult hs (fun v hv => ?_) (fun e he => .of_undefinedVariable (State.lookUp_fault he)) hk
  obtain ⟨f, hf⟩ := State.frame_of_lookUp hv
  exact hs.vars _ _ _ hf

theorem assign {id : NodeId} {name : Token} {v : Value} {k : Stack .value} (hs : s.Within code)
    (hv : v.Within code) (hk : k.Within code) :
    (assign s id name v k).Within code := by
  unfold Machine.assign
  split
  · exact ⟨hs.setVar _ _ hv, hv, hk⟩
  · exact ⟨hs, trivial, hk⟩

theorem property {o : Instance} {name : Token} {k : Stack .value} (hs : s.Within code)
    (ho : o.cls.Within code) (hk : k.Within code) :
    (property s o name k).Within code := by
  unfold Machine.property
  split
  next v hv => exact ⟨hs, hs.fields _ _ _ hv, hk⟩
  next =>
    split
    next f hf => exact ⟨hs.bind f ho, ho _ f hf, hk⟩
    next => exact ⟨hs, trivial, hk⟩

/-- The body of a function waits to be carried out. -/
theorem enterBody {f : Closure} {args : List Value} {k : Stack .value} (hs : s.Within code)
    (hf : f.Within code) (hargs : ∀ v ∈ args, v.Within code) (hk : k.Within code) :
    (enterBody s f args k).Within code := by
  refine ⟨hs.addFrame fun name v hv => ?_, trivial, hf, trivial, hk⟩
  exact hargs v (Bindings.get?_ofList_zip hv).2

theorem callNative {f : Native} {args : List Value} {k : Stack .value} (hs : s.Within code)
    (hk : k.Within code) : (callNative s f args k).Within code := by
  obtain ⟨time, v, hv, hcall⟩ := callNative_cases s f args k
  rw [hcall]
  exact ⟨hs, .of_plain hv, hk⟩

theorem instantiate {c : Class} {args : List Value} {k : Stack .value} (hs : s.Within code)
    (hc : c.Within code) (hargs : ∀ v ∈ args, v.Within code) (hk : k.Within code) :
    (instantiate s c args k).Within code := by
  unfold Machine.instantiate
  simp only [State.withStore_eq]
  split
  next => exact ⟨hs.addObject, hc, hk⟩
  next f hf => exact enterBody (hs.addObject.bind f hc) (hc _ f hf) hargs ⟨hc, hk⟩

theorem call {callee : Value} {paren : Token} {args : List Value} {k : Stack .value}
    (hs : s.Within code) (hc : callee.Within code)
    (hargs : ∀ v ∈ args, v.Within code) (hk : k.Within code) :
    (call s callee paren args k).Within code := by
  unfold Machine.call
  split
  next f =>
    split
    · exact ⟨hs, trivial, hk⟩
    · split
      · exact ⟨hs, trivial, hk⟩
      · cases f with
        | native f => exact callNative hs hk
        | closure f => exact enterBody hs hc hargs hk
        | «class» c => exact instantiate hs hc hargs hk
  next => exact ⟨hs, trivial, hk⟩

theorem nextArgument {callee : Value} {paren : Token} {done : List Value} {rest : List Expr}
    {k : Stack .value} (hs : s.Within code) (hc : callee.Within code)
    (hdone : ∀ v ∈ done, v.Within code) (hrest : ∀ e ∈ rest, code (.expr e))
    (hk : k.Within code) : (nextArgument s callee paren done rest k).Within code := by
  cases rest with
  | nil => exact call hs hc (fun v hv => hdone v (List.mem_reverse.1 hv)) hk
  | cons e rest =>
    obtain ⟨he, hrest⟩ := List.forall_mem_cons.1 hrest
    exact ⟨hs, he, ⟨hc, hdone, hrest⟩, hk⟩

/-! ## Steps and runs -/

section

variable (hcode : Node.Operable code)

include hcode

theorem eval {e : Expr} {k : Stack .value} (hs : s.Within code) (he : code (.expr e))
    (hk : k.Within code) : (eval s k e).Within code := by
  have hpart {c : Node} : c ∈ (Node.expr e).children → code c := hcode.part he
  cases e with
  | literal l => exact ⟨hs, .of_plain l.plain, hk⟩
  | «variable» | this => exact lookUp hs hk
  | grouping e => exact ⟨hs, hpart (.head _), hk⟩
  | assign id name e | get e name => exact ⟨hs, hpart (.head _), trivial, hk⟩
  | unary op e => exact ⟨hs, hpart (.head _), ⟨e, he⟩, hk⟩
  | binary left op right | logical left op right => exact ⟨hs, hpart (.head _), ⟨left, he⟩, hk⟩
  | call callee paren args =>
    exact ⟨hs, hpart (.head _), fun e hmem => hpart (.tail _ (List.mem_map_of_mem hmem)), hk⟩
  | set object name e => exact ⟨hs, hpart (.head _), hpart (.tail _ (.head _)), hk⟩

theorem exec {stmt : Stmt} {k : Stack .flow} (hs : s.Within code) (hstmt : code (.stmt stmt))
    (hk : k.Within code) : (exec s k stmt).Within code := by
  have hpart {c : Node} : c ∈ (Node.stmt stmt).children → code c := hcode.part hstmt
  cases stmt with
  | expression e | print e => exact ⟨hs, hpart (.head _), trivial, hk⟩
  | var name init =>
    cases init with
    | none => exact ⟨hs.setVar _ _ trivial, trivial, hk⟩
    | some e => exact ⟨hs, hpart (.head _), trivial, hk⟩
  | block body =>
    refine ⟨hs.addFrame (fun _ _ h => ?_), trivial, fun t ht => hpart (List.mem_map_of_mem ht), hk⟩
    cases h
  | cond test thenPart elsePart =>
    refine ⟨hs, hpart (.head _), ⟨hpart (.tail _ (.head _)), fun t ht => hpart ?_⟩, hk⟩
    cases ht
    exact .tail _ (.tail _ (.head _))
  | «while» test body => exact ⟨hs, hpart (.head _), ⟨hpart (.head _), hpart (.tail _ (.head _))⟩, hk⟩
  | function decl =>
    have hdecl : code (.function decl) := hpart (.head _)
    exact ⟨(hs.stamp _).setVar _ _ (Closure.Within.of_decl hcode hdecl (.inl rfl)), trivial, hk⟩
  | ret keyword value =>
    cases value with
    | none => exact ⟨hs, trivial, hk⟩
    | some e => exact ⟨hs, hpart (.head _), trivial, hk⟩
  | «class» name decls =>
    obtain ⟨stamp, hstore⟩ := Store.methods_store s.env decls s.store .empty
    have hclass : ∀ stamp, Class.Within code
        ⟨stamp, name.lexeme, (s.store.methods s.env decls .empty).1⟩ := by
      intro stamp n f hf
      obtain ⟨number, decl, hd, rfl⟩ | hf := Store.method_of_methods hf
      · exact .of_decl hcode (hpart (List.mem_map_of_mem hd)) (.inr rfl)
      · cases hf
    simp only [Machine.exec, State.withStore_eq, hstore, Store.freshStamp]
    exact ⟨(hs.stamp _).setVar _ _ (hclass _), trivial, hk⟩

theorem serveValue {v : Value} {b : Yield} {w : Waiting .value b} {k : Stack b}
    (hs : s.Within code) (hv : v.Within code) (hw : w.Within code) (hk : k.Within code) :
    (serveValue s v w k).Within code := by
  cases w with
  | unary op =>
    obtain ⟨e, he⟩ := hw
    exact ofResult hs (fun x hx => .of_plain (plain_unaryOperation hx))
      (fun _ => foreseen_unaryOperation (hcode.apt he)) hk
  | binaryLeft op right =>
    obtain ⟨left, he⟩ := hw
    exact ⟨hs, hcode.part he (.tail _ (.head _)), ⟨hv, left, right, he⟩, hk⟩
  | binaryRight left op =>
    obtain ⟨-, l, r, he⟩ := hw
    exact ofResult hs (fun x hx => .of_plain (plain_binaryOperation hx))
      (fun _ => foreseen_binaryOperation (hcode.apt he)) hk
  | logical op right =>
    obtain ⟨left, he⟩ := hw
    rw [Machine.serveValue]
    split
    · exact ⟨hs, hv, hk⟩
    · exact ⟨hs, hcode.part he (.tail _ (.head _)), hk⟩
  | assign id name => exact assign hs hv hk
  | callee paren args => exact nextArgument hs hv (List.forall_mem_nil _) hw hk
  | argument f paren done rest =>
    obtain ⟨hf, hdone, hrest⟩ := hw
    exact nextArgument hs hf (List.forall_mem_cons.2 ⟨hv, hdone⟩) hrest hk
  | property name =>
    cases v with
    | object o => exact property hs hv hk
    | _ => exact ⟨hs, trivial, hk⟩
  | fieldObject name e =>
    cases v with
    | object o => exact ⟨hs, hw, hv, hk⟩
    | _ => exact ⟨hs, trivial, hk⟩
  | fieldValue o name => exact ⟨hs.setField _ _ hv, hv, hk⟩
  | construct o => exact ⟨hs, hw, hk⟩
  | discard | print => exact ⟨hs, trivial, hk⟩
  | define name => exact ⟨hs.setVar _ _ hv, trivial, hk⟩
  | branch thenPart elsePart =>
    obtain ⟨hthen, helse⟩ := hw
    cases elsePart with
    | none =>
      rw [Machine.serveValue]
      split
      · exact ⟨hs, hthen, hk⟩
      · exact ⟨hs, trivial, hk⟩
    | some other =>
      rw [Machine.serveValue]
      split
      · exact ⟨hs, hthen, hk⟩
      · exact ⟨hs, helse other rfl, hk⟩
  | loopTest test body =>
    rw [Machine.serveValue]
    split
    · exact ⟨hs, hw.2, hw, hk⟩
    · exact ⟨hs, trivial, hk⟩
  | ret => exact ⟨hs, hv, hk⟩

omit hcode in
theorem serveFlow {f : Flow} {b : Yield} {w : Waiting .flow b} {k : Stack b}
    (hs : s.Within code) (hf : f.Within code) (hw : w.Within code) (hk : k.Within code) :
    (serveFlow s f w k).Within code := by
  cases w with
  | block rest around =>
    cases f with
    | returned v => exact ⟨hs, hf, hk⟩
    | normal =>
      cases rest with
      | nil => exact ⟨hs, hf, hk⟩
      | cons next rest =>
        obtain ⟨hnext, hrest⟩ := List.forall_mem_cons.1 hw
        exact ⟨hs, hnext, hrest, hk⟩
  | loopBody test body =>
    cases f with
    | normal => exact ⟨hs, hw.1, hw, hk⟩
    | returned v => exact ⟨hs, hf, hk⟩
  | body g =>
    have hreturned : ∀ v, f = .returned v → v.Within code := by
      rintro v rfl
      exact hf
    exact ofResult hs (fun x hx => hs.result (fun _ => .of_plain) hreturned hx)
      (fun e he => .of_undefinedVariable (g.result_fault he)) hk
  | program rest =>
    cases rest with
    | nil => exact ⟨hs, trivial, hk⟩
    | cons next rest =>
      obtain ⟨hnext, hrest⟩ := List.forall_mem_cons.1 hw
      exact ⟨hs, hnext, hrest, hk⟩

theorem step {m : Machine} (h : m.Within code) : m.step.Within code := by
  obtain ⟨s, c⟩ := m
  obtain ⟨hs, hc⟩ := h
  cases c with
  | eval e k => exact eval hcode hs hc.1 hc.2
  | exec stmt k => exact exec hcode hs hc.1 hc.2
  | value v k =>
    cases k with
    | bottom => exact ⟨hs, hc⟩
    | push w k => exact serveValue hcode hs hc.1 hc.2.1 hc.2.2
  | flow f k =>
    cases k with
    | bottom => exact ⟨hs, hc⟩
    | push w k => exact serveFlow hs hc.1 hc.2.1 hc.2.2
  | raise e k =>
    cases k with
    | bottom => exact ⟨hs, hc⟩
    | push w k => cases w <;> exact ⟨hs, hc.1, hc.2.2⟩

/-- A machine that holds only this code comes to no other, however long it runs. -/
theorem run {m : Machine} (h : m.Within code) (n : Nat) : (m.run n).Within code := by
  induction n generalizing m with
  | zero => exact h
  | succ n ih =>
    rw [run_succ]
    exact ih (h.step hcode)

end

/-- A machine that is to carry out this code in a state with no other functions. -/
theorem ofProgram {program : List Stmt} (hs : s.Within code)
    (h : ∀ stmt ∈ program, code (.stmt stmt)) : (ofProgram s program).Within code :=
  ⟨hs, trivial, h, trivial⟩

/-- A fault is that of no operator. -/
theorem foreseen {m : Machine} (h : m.Within code) {f : RuntimeFault}
    (hf : m.control.fault? = some f) : f.Foreseen := by
  obtain ⟨s, c⟩ := m
  cases c with
  | raise e k =>
    cases hf
    exact h.control.1
  | _ => cases hf

/-- A logical operator that is not `or` is `and`. -/
theorem logical (hcode : Node.Operable code) {m : Machine} (h : m.Within code) {v : Value}
    {op : Token} {right : Expr} {k : Stack .value}
    (hc : m.control = .value v (.push (.logical op right) k)) (hor : op.is .kwOr = false) :
    op.is .kwAnd = true := by
  obtain ⟨s, c⟩ := m
  cases hc
  obtain ⟨-, ⟨left, he⟩, -⟩ := h.control
  obtain ⟨symbol, hs, hkind⟩ := hcode.apt he
  simp only [Node.logicalOperators, List.mem_cons, List.not_mem_nil, or_false] at hs
  rcases hs with rfl | rfl
  · exact Token.is_iff.2 hkind
  · rw [Token.is_iff.2 hkind] at hor
    cases hor

end Within

end Machine

/-! ## Messages -/

/-- A text begins with the first character of its first part. -/
theorem head?_toList_append {s : String} {c : Char} (h : s.toList.head? = some c) (t : String) :
    (s ++ t).toList.head? = some c := by
  rw [String.toList_append, List.head?_append, h, Option.some_or]

/-- The messages about other faults begin with another letter, whatever names are in them. -/
theorem RuntimeFault.Foreseen.head?_message {f : RuntimeFault} (h : f.Foreseen) :
    ∃ c, f.message.toList.head? = some c ∧ c ≠ 'I' := by
  have hvariable : "Undefined variable '".toList.head? = some 'U' := by decide +kernel
  have hproperty : "Undefined property '".toList.head? = some 'U' := by decide +kernel
  have harity : "Expected ".toList.head? = some 'E' := by decide +kernel
  cases f with
  | unknownUnary | unknownBinary => exact h.elim
  | undefinedVariable name =>
    exact ⟨_, head?_toList_append (head?_toList_append hvariable name) "'.", by decide⟩
  | undefinedProperty name =>
    exact ⟨_, head?_toList_append (head?_toList_append hproperty name) "'.", by decide⟩
  | wrongArity expected got =>
    have hexpected := head?_toList_append harity (toString expected)
    exact ⟨_, head?_toList_append (head?_toList_append (head?_toList_append hexpected _) _) _,
      by decide⟩
  | notCallable => exact ⟨'C', by decide +kernel, by decide⟩
  | stackOverflow => exact ⟨'S', by decide +kernel, by decide⟩
  | propertyOfNonInstance | fieldOfNonInstance | operandNotNumber | operandsNotNumbers
    | operandsNotAddable => exact ⟨'O', by decide +kernel, by decide⟩

theorem RuntimeFault.Foreseen.message_ne {f : RuntimeFault} (h : f.Foreseen) {text : String}
    (ht : text.toList.head? = some 'I') : f.message ≠ text := by
  obtain ⟨c, hc, hne⟩ := h.head?_message
  rintro rfl
  exact hne (Option.some.inj (hc.symm.trans ht))

/-! ## Programs that were read -/

/-- At the start there is no function but a native one. -/
theorem State.within_initial (readings : Nat → Int64) : (State.initial readings).Within code :=
  .initial trivial readings

/-- None of the branches for foreign operators is taken here. -/
structure Machine.Guarded (m : Machine) : Prop where
  unary : ∀ f, m.control.fault? = some f → f.message ≠ "Invalid unary operator."
  binary : ∀ f, m.control.fault? = some f → f.message ≠ "Invalid binary operator."
  logical : ∀ v op right k, m.control = .value v (.push (.logical op right) k) →
    op.is .kwOr = false → op.is .kwAnd = true

theorem Machine.Within.guarded (hcode : Node.Operable code) {m : Machine} (h : m.Within code) :
    m.Guarded where
  unary f hf := (h.foreseen hf).message_ne (by decide +kernel)
  binary f hf := (h.foreseen hf).message_ne (by decide +kernel)
  logical v op right k hc hor := h.logical hcode hc hor

/-- The branches for foreign operators cannot be reached. No tree that is read has such an operator
at any depth, be it read with errors or without. So no run of a program that was read, from the
first state or any other whose functions were read too, with or without distances, takes one of
these branches, and the functions in the state that it leaves were read as well. -/
theorem Machine.operators_known :
    (∀ tokens firstId p n,
      (Node.program (Grammar.parse tokens firstId).statements).node? p = some n → n.Apt) ∧
    (∀ readings, (State.initial readings).Within Node.Read) ∧
    ∀ (s : State) tokens firstId, s.Within Node.Read → ∀ n,
      ((ofProgram s (Grammar.parse tokens firstId).statements).run n).Guarded ∧
      ((ofProgram s (Grammar.parse tokens firstId).statements).run n).state.Within Node.Read := by
  refine ⟨fun tokens firstId p n => Grammar.parse_apt tokens firstId p n,
    fun readings => State.within_initial readings, fun s tokens firstId hs n => ?_⟩
  have hstart : (ofProgram s (Grammar.parse tokens firstId).statements).Within Node.Read :=
    .ofProgram hs fun _ => .of_parse
  have hrun := hstart.run Node.operable_read n
  exact ⟨hrun.guarded Node.operable_read, hrun.state⟩

/-- The state behind `fun f() { return !nil; }`, which takes three steps. -/
def declaredNegation : State :=
  ((Machine.ofProgram (.initial fun _ => 0) (Grammar.parse
    (Source.scan (Utf8.encode "fun f() \x7b return !nil; \x7d")).tokens 0).statements).run 3).state

/-- A later program may call the function with the operator in it. -/
theorem Machine.operators_known_later :
    declaredNegation.Within Node.Read ∧
    declaredNegation.store.get? globals "f" = some (.callable (.closure
      ⟨1, .mk (.identifier "f" 1) [] [.ret ⟨.symbol .kwReturn, "return", 1⟩
        (some (.unary ⟨.symbol .bang, "!", 1⟩ (.literal .nil)))], globals, false⟩)) ∧
    ∀ n, ((ofProgram declaredNegation (Grammar.parse
      (Source.scan (Utf8.encode "f();")).tokens 0).statements).run n).Guarded := by
  obtain ⟨-, hinitial, hrun⟩ := operators_known
  have hdeclared : declaredNegation.Within Node.Read := (hrun _ _ 0 (hinitial fun _ => 0) 3).2
  exact ⟨hdeclared, by with_unfolding_all rfl, fun n => (hrun _ _ 0 hdeclared n).1⟩

end Lox
