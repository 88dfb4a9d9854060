/-
Frames and scopes side by side. `Mirrors` says that the frames of an environment
are activations of the scopes that were open at a visit. The rest of the module
says the same of a whole machine (`Machine.InPlace`): what it is about to do was
visited with scopes that its environment mirrors, what waits on its stack was
visited with those that will be mirrored when it is served, and every function
in its store was visited with those that its own environment mirrors.

A layout keeps for each frame what its scope holds in the end. That never
changes, so two environments that share a frame agree on it.
-/
import Lox.Proofs.Scope.Standing
import Lox.Machine.Step

namespace Lox

/-- The frames from a place outward, each with the scope that it is an activation of: as the scope
was at a visit of that place, and as it was closed. A frame has the names that its scope had defined
and none that its scope never declares. The last frame is that of the globals. -/
inductive Mirrors (s : Store) : List FrameId → List Scope → List Scope → Prop
  | globals : Mirrors s [globals.frame] [] []
  | scope {frame frames} {scope closing : Scope} {scopes closings} :
    frame ≠ globals.frame →
    (∀ name, scope.get? name = some .defined → (s.frame frame).contains name = true) →
    (∀ name, (s.frame frame).contains name = true → closing.contains name = true) →
    Mirrors s frames scopes closings →
    Mirrors s (frame :: frames) (scope :: scopes) (closing :: closings)

/-- The scopes open somewhere, as they are there and as they are closed. -/
structure Spot where
  scopes : List Scope
  closing : List Scope

namespace Spot

/-- Outside all scopes. -/
def top : Spot := ⟨[], []⟩

/-- Behind the declaration of a name. -/
def defined (p : Spot) (name : Token) : Spot := { p with scopes := withDefined name p.scopes }

end Spot

/-- Where a visit is. -/
def Visit.spot (v : Visit) : Spot := ⟨v.scopes, v.closing⟩

/-- What is known about a run: the sites that were visited, and for each frame what its scope holds
when it is closed. The frame of the globals has no scope. -/
structure Layout where
  visits : Site → Visit → Prop
  labels : List (Option Scope)

namespace Layout

/-- The site was visited at this place. -/
def At (G : Layout) (site : Site) (p : Spot) : Prop := ∃ v, G.visits site v ∧ v.spot = p

/-- The frames are activations of the scopes. -/
inductive Chain (G : Layout) (s : Store) : List FrameId → List Scope → List Scope → Prop
  | globals : G.labels[globals.frame]? = some none → Chain G s [globals.frame] [] []
  | scope {frame frames} {scope closing : Scope} {scopes closings} :
    G.labels[frame]? = some (some closing) →
    (∀ name, scope.get? name = some .defined → (s.frame frame).contains name = true) →
    Chain G s frames scopes closings →
    Chain G s (frame :: frames) (scope :: scopes) (closing :: closings)

/-- The environment is an activation of the scopes of a place. -/
def Follows (G : Layout) (s : Store) (env : Env) (p : Spot) : Prop :=
  G.Chain s env.chain p.scopes p.closing

/-- The environment is that in which a place is carried out: its own frame has no name that is not
defined at the place. -/
structure Active (G : Layout) (s : Store) (env : Env) (p : Spot) : Prop where
  follows : G.Follows s env p
  exact : ∀ scope, p.scopes.head? = some scope → ∀ name,
    (s.frame env.frame).contains name = true → scope.get? name = some .defined

/-- The function was visited at a place that its environment mirrors. -/
def OkClosure (G : Layout) (s : Store) (f : Closure) : Prop :=
  ∃ context v, G.visits (.function f.decl context) v ∧ G.Follows s f.env v.spot

/-- The method was visited in a class at a place that its environment mirrors. It is no function of
its own until it is bound, which makes the frame of the class. -/
def OkMethod (G : Layout) (s : Store) (f : Closure) : Prop :=
  ∃ context v p, G.visits (.function f.decl context) v ∧
    v.spot = ⟨classScope :: p.scopes, classScope :: p.closing⟩ ∧ G.Follows s f.env p

def OkClass (G : Layout) (s : Store) (c : Class) : Prop :=
  ∀ name f, c.methods.get? name = some f → G.OkMethod s f

def OkValue (G : Layout) (s : Store) : Value → Prop
  | .callable (.closure f) => G.OkClosure s f
  | .callable (.class c) => G.OkClass s c
  | .object o => G.OkClass s o.cls
  | _ => True

/-- Every frame has no name but those its scope declares, and every value in the store is well. -/
structure OkStore (G : Layout) (s : Store) : Prop where
  size : G.labels.length = s.frames.size
  globals : G.labels[globals.frame]? = some none
  only : ∀ f closing name, G.labels[f]? = some (some closing) →
    (s.frame f).contains name = true → closing.contains name = true
  vars : ∀ f name v, (s.frame f).get? name = some v → G.OkValue s v
  fields : ∀ o name v, (s.fields o).get? name = some v → G.OkValue s v

end Layout

/-- What waits goes on in this environment at this place. -/
inductive Stack.Fits (G : Layout) (s : Store) : {a : Yield} → Stack a → Env → Spot → Prop
  | bottom {a p} : Fits G s (.bottom : Stack a) globals p
  | unary {op k env p} : Fits G s k env p → Fits G s (.push (.unary op) k) env p
  | binaryLeft {op right k env p} : G.At (.expr right) p → Fits G s k env p →
    Fits G s (.push (.binaryLeft op right) k) env p
  | binaryRight {left op k env p} : Fits G s k env p →
    Fits G s (.push (.binaryRight left op) k) env p
  | logical {op right k env p} : G.At (.expr right) p → Fits G s k env p →
    Fits G s (.push (.logical op right) k) env p
  | assign {id name e k env p} : G.At (.expr (.assign id name e)) p → Fits G s k env p →
    Fits G s (.push (.assign id name) k) env p
  | callee {paren args k env p} : G.At (.exprs args) p → Fits G s k env p →
    Fits G s (.push (.callee paren args) k) env p
  | argument {callee paren done rest k env p} : G.OkValue s callee →
    (∀ v ∈ done, G.OkValue s v) → G.At (.exprs rest) p → Fits G s k env p →
    Fits G s (.push (.argument callee paren done rest) k) env p
  | property {name k env p} : Fits G s k env p → Fits G s (.push (.property name) k) env p
  | fieldObject {name e k env p} : G.At (.expr e) p → Fits G s k env p →
    Fits G s (.push (.fieldObject name e) k) env p
  | fieldValue {o name k env p} : Fits G s k env p →
    Fits G s (.push (.fieldValue o name) k) env p
  | construct {o k env p} : G.OkValue s (.object o) → Fits G s k env p →
    Fits G s (.push (.construct o) k) env p
  | discard {k env p} : Fits G s k env p → Fits G s (.push .discard k) env p
  | print {k env p} : Fits G s k env p → Fits G s (.push .print k) env p
  | ret {k env p} : Fits G s k env p → Fits G s (.push .ret k) env p
  | define {name k env p} : Grows (withDefined name p.scopes) p.closing →
    Fits G s k env (p.defined name) → Fits G s (.push (.define name) k) env p
  | branch {thenPart k env p} {elsePart : Option Stmt} :
    G.At (.stmt thenPart) p → thenPart.declared? = none →
    (∀ e, elsePart = some e → G.At (.stmt e) p ∧ e.declared? = none) → Fits G s k env p →
    Fits G s (.push (.branch thenPart elsePart) k) env p
  | loopTest {test body k env p} : G.At (.expr test) p → G.At (.stmt body) p →
    body.declared? = none → Fits G s k env p → Fits G s (.push (.loopTest test body) k) env p
  | loopBody {test body k env p} : G.At (.expr test) p → G.At (.stmt body) p →
    body.declared? = none → Fits G s k env p → Fits G s (.push (.loopBody test body) k) env p
  /-- A block goes on in its own frame, which is newer than the one around it. -/
  | block {rest around k env p q} : G.At (.stmts rest) p → G.Active s around q →
    around.frame < env.frame → Fits G s k around q → Fits G s (.push (.block rest around) k) env p
  | body {f k env p} : Fits G s k env p → Fits G s (.push (.body f) k) env p
  | program {rest k} : G.At (.stmts rest) .top → Fits G s k globals .top →
    Fits G s (.push (.program rest) k) globals .top

/-- What the machine is about to do goes on in its environment. -/
def Machine.Fits (G : Layout) : Machine → Prop
  | ⟨s, .eval e k⟩ => ∃ v, G.visits (.expr e) v ∧ G.Active s.store s.env v.spot ∧
    k.Fits G s.store s.env v.spot
  | ⟨s, .exec stmt k⟩ => ∃ v, G.visits (.stmt stmt) v ∧ G.Active s.store s.env v.spot ∧
    k.Fits G s.store s.env (v.after (.stmt stmt)).spot
  | ⟨s, .value x k⟩ => ∃ p, G.OkValue s.store x ∧ G.Active s.store s.env p ∧
    k.Fits G s.store s.env p
  | ⟨s, .flow f k⟩ => ∃ p, (∀ x, f = .returned x → G.OkValue s.store x) ∧
    G.Active s.store s.env p ∧ k.Fits G s.store s.env p
  | ⟨s, .raise _ k⟩ => ∃ p, k.Fits G s.store s.env p

/-- All that the machine holds was visited where it is carried out. -/
def Machine.InPlace (visits : Site → Visit → Prop) (m : Machine) : Prop :=
  ∃ labels, Layout.OkStore ⟨visits, labels⟩ m.state.store ∧ m.Fits ⟨visits, labels⟩

/-! ## A later layout -/

/-- Nothing visited is lost, no frame loses a name or changes its scope, and the frames below `b` get
no name. -/
structure Later (b : FrameId) (G : Layout) (s : Store) (G' : Layout) (s' : Store) : Prop where
  visits : ∀ site v, G.visits site v → G'.visits site v
  labels : G.labels <+: G'.labels
  names : ∀ f name, (s.frame f).contains name = true → (s'.frame f).contains name = true
  same : ∀ f < b, ∀ name, (s'.frame f).contains name = true → (s.frame f).contains name = true

namespace Later

variable {b c : FrameId} {G G' : Layout} {s s' : Store}

theorem below (h : Later b G s G' s') (hc : c ≤ b) : Later c G s G' s' :=
  ⟨h.visits, h.labels, h.names, fun f hf => h.same f (Nat.lt_of_lt_of_le hf hc)⟩

theorem trans {G'' : Layout} {s'' : Store} (h : Later b G s G' s') (h' : Later b G' s' G'' s'') :
    Later b G s G'' s'' :=
  ⟨fun site v hv => h'.visits site v (h.visits site v hv), h.labels.trans h'.labels,
    fun f name hn => h'.names f name (h.names f name hn),
    fun f hf name hn => h.same f hf name (h'.same f hf name hn)⟩

theorem label (h : Later b G s G' s') {f : FrameId} {l : Option Scope}
    (hl : G.labels[f]? = some l) : G'.labels[f]? = some l := by
  obtain ⟨more, hmore⟩ := h.labels
  obtain ⟨hlt, -⟩ := List.getElem?_eq_some_iff.1 hl
  rw [← hmore, List.getElem?_append_left hlt, hl]

theorem spot (h : Later b G s G' s') {site : Site} {p : Spot} (hp : G.At site p) :
    G'.At site p := by
  obtain ⟨v, hv, hp⟩ := hp
  exact ⟨v, h.visits _ _ hv, hp⟩

theorem chain (h : Later b G s G' s') {frames : List FrameId} {scopes closings : List Scope}
    (hc : G.Chain s frames scopes closings) : G'.Chain s' frames scopes closings := by
  induction hc with
  | globals hl => exact .globals (h.label hl)
  | scope hl hd _ ih => exact .scope (h.label hl) (fun name hn => h.names _ _ (hd name hn)) ih

theorem follows (h : Later b G s G' s') {env : Env} {p : Spot} (hf : G.Follows s env p) :
    G'.Follows s' env p := h.chain hf

theorem active (h : Later b G s G' s') {env : Env} {p : Spot} (ha : G.Active s env p)
    (hb : env.frame < b) : G'.Active s' env p :=
  ⟨h.follows ha.follows, fun scope hs name hn => ha.exact scope hs name (h.same _ hb _ hn)⟩

theorem value (h : Later b G s G' s') {x : Value} (hx : G.OkValue s x) : G'.OkValue s' x := by
  have method : ∀ f, G.OkMethod s f → G'.OkMethod s' f := fun f hf => by
    obtain ⟨context, v, p, hv, hp, hf⟩ := hf
    exact ⟨context, v, p, h.visits _ _ hv, hp, h.follows hf⟩
  cases x with
  | nil | bool | number | string => trivial
  | object o => exact fun name f hf => method f (hx name f hf)
  | callable f =>
    cases f with
    | native => trivial
    | closure f =>
      obtain ⟨context, v, hv, hf⟩ := hx
      exact ⟨context, v, h.visits _ _ hv, h.follows hf⟩
    | «class» c => exact fun name f hf => method f (hx name f hf)

/-- What waits in frames that get no name still fits. -/
theorem stack (h : Later b G s G' s') {a : Yield} {k : Stack a} {env : Env} {p : Spot}
    (hk : k.Fits G s env p) (hb : env.frame ≤ b) : k.Fits G' s' env p := by
  induction hk with
  | bottom => exact .bottom
  | unary _ ih => exact .unary (ih hb)
  | binaryLeft hr _ ih => exact .binaryLeft (h.spot hr) (ih hb)
  | binaryRight _ ih => exact .binaryRight (ih hb)
  | logical hr _ ih => exact .logical (h.spot hr) (ih hb)
  | assign he _ ih => exact .assign (h.spot he) (ih hb)
  | callee ha _ ih => exact .callee (h.spot ha) (ih hb)
  | argument hc hd hr _ ih =>
    exact .argument (h.value hc) (fun v hv => h.value (hd v hv)) (h.spot hr) (ih hb)
  | property _ ih => exact .property (ih hb)
  | fieldObject he _ ih => exact .fieldObject (h.spot he) (ih hb)
  | fieldValue _ ih => exact .fieldValue (ih hb)
  | construct ho _ ih => exact .construct (h.value ho) (ih hb)
  | discard _ ih => exact .discard (ih hb)
  | print _ ih => exact .print (ih hb)
  | ret _ ih => exact .ret (ih hb)
  | define hg _ ih => exact .define hg (ih hb)
  | branch ht hd he _ ih =>
    exact .branch (h.spot ht) hd (fun e hs => ⟨h.spot (he e hs).1, (he e hs).2⟩) (ih hb)
  | loopTest ht hbody hd _ ih => exact .loopTest (h.spot ht) (h.spot hbody) hd (ih hb)
  | loopBody ht hbody hd _ ih => exact .loopBody (h.spot ht) (h.spot hbody) hd (ih hb)
  | block hr ha hlt _ ih =>
    have hlt' := Nat.lt_of_lt_of_le hlt hb
    exact .block (h.spot hr) (h.active ha hlt') hlt (ih (Nat.le_of_lt hlt'))
  | body _ ih => exact .body (ih hb)
  | program hr _ ih => exact .program (h.spot hr) (ih hb)

end Later

/-! ## Chains -/

namespace Layout

variable {G : Layout} {s : Store}

theorem Chain.head_lt {frame : FrameId} {frames : List FrameId} {scopes closings : List Scope}
    (h : G.Chain s (frame :: frames) scopes closings) : frame < G.labels.length := by
  cases h with
  | globals hl => exact (List.getElem?_eq_some_iff.1 hl).1
  | scope hl => exact (List.getElem?_eq_some_iff.1 hl).1

theorem Active.lt_size {env : Env} {p : Spot} (h : G.Active s env p) (hs : G.OkStore s) :
    env.frame < s.frames.size :=
  hs.size ▸ h.follows.head_lt

theorem Chain.mirrors (hs : G.OkStore s) {frames : List FrameId} {scopes closings : List Scope}
    (h : G.Chain s frames scopes closings) : Mirrors s frames scopes closings := by
  induction h with
  | globals => exact .globals
  | @scope frame _ _ closing _ _ hl hd _ ih =>
    refine .scope (fun he => ?_) hd (fun name => hs.only frame closing name hl) ih
    rw [he, hs.globals] at hl
    cases hl

end Layout

end Lox
