/-
Whatever the grammar derives, it derives with every `else` at the nearest open
`if`. Where an `else` stands behind a statement that ends in an open `if`, that
statement takes it in (`absorb`), and the `if` further out loses it.
-/
import Lox.Proofs.Grammar.Ebnf

namespace Lox.Ebnf

/-- A statement of these tokens with every `else` at the nearest `if`. -/
def Nearest (ts : List Token) : Prop := ∃ s opens, Statement true ts s opens ∧ s.WithinArity

/-- A statement that ends in an open `if` takes in an `else` behind it. -/
theorem absorb {us : List Token} {elsePart : Stmt} {opens' : Bool} {else' : Token}
    (helse : else'.is .kwElse = true) (h' : Statement true us elsePart opens')
    (hw' : elsePart.WithinArity) : ∀ {ts : List Token} {s : Stmt} {opens : Bool},
    Statement true ts s opens → opens = true → s.WithinArity → Nearest (ts ++ else' :: us)
  | _, _, _, .expression _, ho, _ | _, _, _, .print .., ho, _ | _, _, _, .return .., ho, _
  | _, _, _, .block _, ho, _ => by cases ho
  | _, _, _, .for hfor hopen hinit htest hsemi hstep hclose hbody, ho, hw => by
    rw [withinArity_whileForm] at hw
    obtain ⟨hwi, hwt, hws, hwb⟩ := hw
    obtain ⟨s, opens, hs, hws'⟩ := absorb helse h' hw' hbody ho hwb
    refine ⟨_, opens, ?_, withinArity_whileForm.2 ⟨hwi, hwt, hws, hws'⟩⟩
    simpa using Statement.for hfor hopen hinit htest hsemi hstep hclose hs
  | _, _, _, @Statement.if _ _ _ _ _ _ _ _ true hif hopen htest hclose hthen, _, hw => by
    obtain ⟨s, opens, hs, hws⟩ := absorb helse h' hw' hthen rfl hw.2
    refine ⟨.cond _ s none, true, ?_, hw.1, hws⟩
    simpa using Statement.if hif hopen htest hclose hs
  | _, _, _, @Statement.if _ _ _ _ _ _ _ _ false hif hopen htest hclose hthen, _, hw => by
    refine ⟨.cond _ _ (some elsePart), opens', ?_, hw.1, hw.2, hw'⟩
    simpa using Statement.ifElse hif hopen htest hclose hthen (fun _ => rfl) helse h'
  | _, _, _, .ifElse hif hopen htest hclose hthen hclosed helse' hs, ho, hw => by
    obtain ⟨s, opens, hs', hws⟩ := absorb helse h' hw' hs ho hw.2.2
    refine ⟨.cond _ _ (some s), opens, ?_, hw.1, hw.2.1, hws⟩
    simpa using Statement.ifElse hif hopen htest hclose hthen hclosed helse' hs'
  | _, _, _, .while hwhile hopen htest hclose hbody, ho, hw => by
    obtain ⟨s, opens, hs, hws⟩ := absorb helse h' hw' hbody ho hw.2
    refine ⟨.while _ s, opens, ?_, hw.1, hws⟩
    simpa using Statement.while hwhile hopen htest hclose hs

mutual

theorem nearest_statement : ∀ {ts : List Token} {s : Stmt} {opens : Bool},
    Statement false ts s opens → s.WithinArity → Nearest ts
  | _, _, _, .expression h, hw => ⟨_, _, .expression h, hw⟩
  | _, _, _, .print hprint h hsemi, hw => ⟨_, _, .print hprint h hsemi, hw⟩
  | _, _, _, .return hreturn h hsemi, hw => ⟨_, _, .return hreturn h hsemi, hw⟩
  | _, _, _, .for hfor hopen hinit htest hsemi hstep hclose hbody, hw => by
    rw [withinArity_whileForm] at hw
    obtain ⟨hwi, hwt, hws, hwb⟩ := hw
    obtain ⟨s, opens, hs, hws'⟩ := nearest_statement hbody hwb
    exact ⟨_, opens, .for hfor hopen hinit htest hsemi hstep hclose hs,
      withinArity_whileForm.2 ⟨hwi, hwt, hws, hws'⟩⟩
  | _, _, _, .if hif hopen htest hclose hthen, hw => by
    obtain ⟨s, opens, hs, hws⟩ := nearest_statement hthen hw.2
    exact ⟨_, _, .if hif hopen htest hclose hs, hw.1, hws⟩
  | _, _, _, .ifElse hif hopen htest hclose hthen _ helse hs, hw => by
    obtain ⟨s, opens, hs', hws⟩ := nearest_statement hthen hw.2.1
    obtain ⟨e, opens', he, hwe⟩ := nearest_statement hs hw.2.2
    cases opens with
    | false => exact ⟨_, _, .ifElse hif hopen htest hclose hs' (fun _ => rfl) helse he, hw.1, hws, hwe⟩
    | true =>
      obtain ⟨s', opens'', hs'', hws'⟩ := absorb helse he hwe hs' rfl hws
      exact ⟨_, _, .if hif hopen htest hclose hs'', hw.1, hws'⟩
  | _, _, _, .while hwhile hopen htest hclose hbody, hw => by
    obtain ⟨s, opens, hs, hws⟩ := nearest_statement hbody hw.2
    exact ⟨_, _, .while hwhile hopen htest hclose hs, hw.1, hws⟩
  | _, _, _, .block h, hw => by
    obtain ⟨ss, hss, hws⟩ := nearest_block h hw
    exact ⟨_, _, .block hss, hws⟩

theorem nearest_declaration : ∀ {ts : List Token} {s : Stmt}, Declaration false ts s →
    s.WithinArity → ∃ s', Declaration true ts s' ∧ s'.WithinArity
  | _, _, .class hclass hname hopen hmethods hclose, hw => by
    obtain ⟨ds, hds, hwds⟩ := nearest_methods hmethods hw
    exact ⟨_, .class hclass hname hopen hds hclose, hwds⟩
  | _, _, .function hfun h, hw => by
    obtain ⟨d, hd, hwd⟩ := nearest_function h hw
    exact ⟨_, .function hfun hd, hwd⟩
  | _, _, .variable h, hw => ⟨_, .variable h, hw⟩
  | _, _, .statement h, hw => by
    obtain ⟨s, opens, hs, hws⟩ := nearest_statement h hw
    exact ⟨s, .statement hs, hws⟩

theorem nearest_declarations : ∀ {ts : List Token} {ss : List Stmt}, Declarations false ts ss →
    Stmt.AllWithinArity ss → ∃ ss', Declarations true ts ss' ∧ Stmt.AllWithinArity ss'
  | _, _, .nil, hw => ⟨[], .nil, hw⟩
  | _, _, .cons h hrest, hw => by
    obtain ⟨s, hs, hws⟩ := nearest_declaration h hw.1
    obtain ⟨ss, hss, hwss⟩ := nearest_declarations hrest hw.2
    exact ⟨s :: ss, .cons hs hss, hws, hwss⟩

theorem nearest_block : ∀ {ts : List Token} {ss : List Stmt}, Block false ts ss →
    Stmt.AllWithinArity ss → ∃ ss', Block true ts ss' ∧ Stmt.AllWithinArity ss'
  | _, _, .intro hopen h hclose, hw => by
    obtain ⟨ss, hss, hwss⟩ := nearest_declarations h hw
    exact ⟨ss, .intro hopen hss hclose, hwss⟩

theorem nearest_function : ∀ {ts : List Token} {d : FunctionDecl}, Function false ts d →
    d.WithinArity → ∃ d', Function true ts d' ∧ d'.WithinArity
  | _, _, .intro hname hopen hparams hclose h, hw => by
    obtain ⟨ss, hss, hwss⟩ := nearest_block h hw.2
    exact ⟨_, .intro hname hopen hparams hclose hss, hw.1, hwss⟩

theorem nearest_methods : ∀ {ts : List Token} {ds : List FunctionDecl}, Methods false ts ds →
    FunctionDecl.AllWithinArity ds → ∃ ds', Methods true ts ds' ∧ FunctionDecl.AllWithinArity ds'
  | _, _, .nil, hw => ⟨[], .nil, hw⟩
  | _, _, .cons h hrest, hw => by
    obtain ⟨d, hd, hwd⟩ := nearest_function h hw.1
    obtain ⟨ds, hds, hwds⟩ := nearest_methods hrest hw.2
    exact ⟨d :: ds, .cons hd hds, hwd, hwds⟩

end

end Lox.Ebnf
