/-
What is known of the values in a store. The body of each function was visited in
a function of its sort (`Hosted`), the frames around it have been made, and an
initializer has an object for its receiver in a frame of its own; each object has
been made. This lasts as long as no frame gets another receiver.
-/
import Lox.Proofs.Machine.Preserve
import Lox.Proofs.Machine.Receiver
import Lox.Proofs.Machine.Values
import Lox.Proofs.Scope.Context

namespace Lox

/-- Sites that were visited in accepted programs, none of which writes the receiver. -/
structure Layout.Lawful (visits : Site → Visit → Prop) : Prop extends Layout.Closed visits where
  writes : ∀ {id name e v}, visits (.expr (.assign id name e)) v → name.lexeme ≠ receiverName

/-! ## Code and the function that carries it out -/

/-- Code that stands in this sort of function may be carried out by a call of this function, and
code outside of all functions by no call. -/
def Hosts : Option Closure → FunctionContext → Prop
  | none, context => context = .none
  | some f, context => context ≠ .none ∧ (context = .initializer ↔ f.isInit = true)

/-- The site was visited in the sort of function that carries it out. -/
def Hosted (visits : Site → Visit → Prop) (host : Option Closure) (site : Site) : Prop :=
  ∃ v, visits site v ∧ Hosts host v.resolution.function

namespace Layout.Closed

variable {visits : Site → Visit → Prop} (hW : Closed visits) {host : Option Closure} {site part : Site}
  {v w : Visit}

include hW

theorem hosted (hv : visits site v) (hh : Hosts host (site.inside v))
    (hp : (part, w) ∈ site.parts v) : Hosted visits host part :=
  ⟨w, hW.part hv hp, (Site.function_part hp).symm ▸ hh⟩

theorem hostedOnly (hv : visits site v) (hh : Hosts host (site.inside v))
    (hp : site.parts v = [(part, w)]) : Hosted visits host part :=
  hW.hosted hv hh (hp ▸ List.mem_singleton.2 rfl)

theorem hostedFirst {rest : List (Site × Visit)} (hv : visits site v)
    (hh : Hosts host (site.inside v)) (hp : site.parts v = (part, w) :: rest) :
    Hosted visits host part :=
  hW.hosted hv hh (hp ▸ List.mem_cons_self ..)

theorem hostedSecond {first : Site × Visit} {rest : List (Site × Visit)} (hv : visits site v)
    (hh : Hosts host (site.inside v)) (hp : site.parts v = first :: (part, w) :: rest) :
    Hosted visits host part :=
  hW.hosted hv hh (hp ▸ List.mem_cons_of_mem _ (List.mem_cons_self ..))

end Layout.Closed

/-! ## Values -/

/-- The body was visited in a function of this sort, no parameter is called like the receiver, and
the frames around the function have been made. -/
structure Closure.Known (visits : Site → Visit → Prop) (s : Store) (f : Closure) : Prop where
  body : Hosted visits (some f) (.stmts f.decl.body)
  params : ∀ name ∈ f.decl.params, name.lexeme ≠ receiverName
  env : f.env.In s

/-- The function has an object for its receiver, in a frame of its own. -/
def Closure.Owned (s : Store) (f : Closure) : Prop :=
  ∃ o, (s.frame f.env.frame).get? receiverName = some (.object o)

/-- The methods are known, and those of the right name set up instances. -/
def Class.Known (visits : Site → Visit → Prop) (s : Store) (c : Class) : Prop :=
  ∀ name f, c.methods.get? name = some f → f.Known visits s ∧ f.isInit = f.decl.isInit

def Value.Known (visits : Site → Visit → Prop) (s : Store) : Value → Prop
  | .callable (.closure f) => f.Known visits s ∧ (f.isInit = true → f.Owned s)
  | .callable (.class c) => c.Known visits s
  | .object o => o.id < s.objects.size ∧ o.cls.Known visits s
  | _ => True

/-- All values in the store are known. -/
abbrev Store.Known (visits : Site → Visit → Prop) (s : Store) : Prop := s.All (Value.Known visits s)

variable {visits visits' : Site → Visit → Prop} {s s' : Store}

theorem Value.Known.of_plain {v : Value} (h : v.Plain) : v.Known visits s := by
  cases v with
  | nil | bool | number | string => trivial
  | callable | object => exact h.elim

/-! ## What lasts -/

section

variable (hW : ∀ site v, visits site v → visits' site v) (hk : s.Keeps s')

include hW

theorem Hosted.mono {host : Option Closure} {site : Site} (h : Hosted visits host site) :
    Hosted visits' host site := by
  obtain ⟨v, hv, hh⟩ := h
  exact ⟨v, hW _ _ hv, hh⟩

include hk

theorem Closure.Known.mono {f : Closure} (h : f.Known visits s) : f.Known visits' s' :=
  ⟨h.body.mono hW, h.params, hk.env_in h.env⟩

theorem Class.Known.mono {c : Class} (h : c.Known visits s) : c.Known visits' s' := by
  intro name f hf
  obtain ⟨hknown, hinit⟩ := h name f hf
  exact ⟨hknown.mono hW hk, hinit⟩

theorem Value.Known.mono {v : Value} (h : v.Known visits s) : v.Known visits' s' := by
  cases v with
  | nil | bool | number | string => trivial
  | object o => exact ⟨Nat.lt_of_lt_of_le h.1 hk.objects, h.2.mono hW hk⟩
  | callable f =>
    cases f with
    | native => trivial
    | «class» c => exact Class.Known.mono hW hk h
    | closure f =>
      obtain ⟨hknown, howned⟩ := h
      refine ⟨hknown.mono hW hk, fun hi => ?_⟩
      obtain ⟨o, ho⟩ := howned hi
      exact ⟨o, (hk.receiver _ (hknown.env _ (List.mem_cons_self ..))).trans ho⟩

end

theorem Value.Known.keeps {v : Value} (h : v.Known visits s) (hk : s.Keeps s') :
    v.Known visits s' :=
  h.mono (fun _ _ hv => hv) hk

/-! ## Stores -/

namespace Store.Known

/-- More visits make nothing unknown. -/
theorem mono (hW : ∀ site v, visits site v → visits' site v) (h : s.Known visits) :
    s.Known visits' :=
  All.mono h fun _ hv => hv.mono hW (.refl s)

theorem setVar (h : s.Known visits) (f : FrameId) {name : String} (hn : name ≠ receiverName)
    {v : Value} (hv : v.Known visits s) : (s.setVar f name v).Known visits :=
  have hk := s.keeps_setVar f hn v
  All.mono (All.setVar h f name hv) fun _ hw => hw.keeps hk

theorem setField (h : s.Known visits) (o : ObjectId) (name : String) {v : Value}
    (hv : v.Known visits s) : (s.setField o name v).Known visits :=
  All.mono (All.setField h o name hv) fun _ hw => hw.keeps (s.keeps_setField o name v)

theorem addFrame (h : s.Known visits) {vars : Bindings Value}
    (hv : ∀ name v, vars.get? name = some v → v.Known visits s) :
    (s.addFrame vars).2.Known visits :=
  All.mono (All.addFrame h hv) fun _ hw => hw.keeps (s.keeps_addFrame vars)

theorem addObject (h : s.Known visits) : s.addObject.2.Known visits :=
  All.mono (All.addObject h) fun _ hw => hw.keeps s.keeps_addObject

theorem stamp (h : s.Known visits) (n : Nat) : ({ s with nextStamp := n } : Store).Known visits :=
  All.mono (All.stamp h n) fun _ hw => hw.keeps (.of_eq rfl rfl)

/-- A method that is bound to an instance is owned by it. -/
theorem bind (h : s.Known visits) {f : Closure} (hf : f.Known visits s) {o : Instance}
    (ho : (Value.object o).Known visits s) :
    (s.bind f o).2.Known visits ∧
      (Value.callable (.closure (s.bind f o).1)).Known visits (s.bind f o).2 := by
  obtain ⟨hin, -, howned⟩ := receiver?_bind hf.env o
  exact ⟨All.mono (All.bind h f ho) fun _ hw => hw.keeps (s.keeps_bind f o),
    ⟨hf.body, hf.params, hin⟩, fun _ => ⟨o, howned⟩⟩

end Store.Known

/-! ## New functions -/

/-- The parts of a function that was visited. -/
theorem Closure.Known.of_visited (hW : Layout.Closed visits) {f : Closure} {context : FunctionContext}
    {v : Visit} (hv : visits (.function f.decl context) v) (hh : Hosts (some f) context)
    (he : f.env.In s) : f.Known visits s := by
  have hproper := (hW.fine hv).proper
  obtain ⟨stamp, ⟨name, params, body⟩, env, isInit⟩ := f
  rw [Site.Proper, FunctionDecl.Proper] at hproper
  exact ⟨hW.hostedOnly hv hh rfl, hproper.1, he⟩

/-- The methods of a class that was visited. -/
theorem Class.known_methods (hW : Layout.Closed visits) {decls : List FunctionDecl} {v : Visit}
    (hv : visits (.methods decls) v) {env : Env} (he : env.In s) (stamp : Nat) (name : String) :
    Class.Known visits s ⟨stamp, name, (s.methods env decls .empty).1⟩ := by
  intro n f hf
  rcases Store.method_of_methods hf with ⟨number, decl, hd, rfl⟩ | hf
  · obtain ⟨w, hw, -, -⟩ := hW.method hv hd
    refine ⟨.of_visited hW hw ?_ he, rfl⟩
    by_cases hi : decl.isInit = true
    · simp [Hosts, hi]
    · simp [Hosts, hi]
  · cases hf

end Lox
