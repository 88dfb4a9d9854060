/-
Reading starts anew behind a program. Between two declarations the parser keeps
nothing but its place: what was found so far is only put in front
(`programFrom_found`), and a cursor that comes to the end of a program without a
report stands where a new one would (`Over.eq_ofTokens`). So whatever stands
behind a program is read as it is by itself, with its errors (`parse_behind`).
-/
import Lox.Proofs.Grammar.Progress

namespace Lox.Grammar

open Rule

/-- What is still found does not depend on what was found so far, which stands in front of it. -/
theorem programFrom_found {c : Cursor} (he : c.eof.isEof = true) :
    ∃ ss d, ∀ found, programFrom found c = .ok (found.reverse ++ ss) d := by
  induction hn : c.left using Nat.strongRecOn generalizing c with
  | ind n ih =>
    subst hn
    by_cases hrest : c.rest = []
    · exact ⟨[], c, fun found => by rw [programFrom_nil hrest, List.append_nil]⟩
    · obtain ⟨s?, d, hs, hd, hlt⟩ := declaration_takes he hrest
      obtain ⟨ss, d', hss⟩ := ih d.left hlt (hd.eof ▸ he) rfl
      refine ⟨s?.toList ++ ss, d', fun found => ?_⟩
      rw [programFrom_cons hrest, Carries.bind_of_ok hs, below, if_pos hlt, hss]
      cases s? <;> simp

theorem bodyOf_of_forall {tokens : List Token} (h : ∀ t ∈ tokens, t.isEof = false) :
    bodyOf tokens = tokens :=
  List.takeWhile_eq_self_iff.2 fun t ht => by rw [h t ht]; rfl

/-- The end behind two lists of tokens is the end behind the second one, if that has any. -/
theorem endOf_append {first second : List Token} (h : ∀ t ∈ first, t.isEof = false)
    (hsecond : second ≠ []) : endOf (first ++ second) = endOf second := by
  have hnone : first.find? Token.isEof = none :=
    List.find?_eq_none.2 fun t ht => by simp [h t ht]
  rw [endOf, List.find?_append, hnone, Option.none_or, List.getLast?_append_of_ne_nil _ hsecond]
  rfl

/-- A cursor that has nothing behind it but its number is the start of what is ahead. -/
theorem Cursor.eq_ofTokens {c : Cursor} {tokens : List Token}
    (hrest : c.rest = bodyOf tokens) (heof : c.eof = endOf tokens) (herr : c.errors = #[])
    (hflag : c.Flagged) : c = Cursor.ofTokens tokens c.nextId := by
  have hfailed : c.failed = false := Bool.eq_false_iff.2 fun h => hflag.1 h herr
  obtain ⟨rest, left, eof, nextId, errors, failed, rfl⟩ := c
  obtain rfl : rest = bodyOf tokens := hrest
  obtain rfl : eof = endOf tokens := heof
  obtain rfl : errors = #[] := herr
  obtain rfl : failed = false := hfailed
  rfl

/-- No tokens are the empty program. -/
theorem parse_nil (firstId : NodeId) : parse [] firstId = ⟨[], [], false, firstId⟩ :=
  parse_of_ok (c := Cursor.ofTokens [] firstId) (programFrom_nil rfl [])

/-- Behind tokens that are read without a report, others are read as they are alone, whatever is
wrong with them: their statements come behind those of the first tokens, and the reports are theirs.
Only an `else` would still belong to what stands in front of it. -/
theorem parse_behind (first second : List Token) (firstId : NodeId)
    (hfirst : ∀ t ∈ first, t.isEof = false) (hsecond : ∀ t ∈ second, t.isEof = false)
    (hclean : (parse first firstId).errors = [])
    (helse : ∀ t ∈ second.head?, t.is .kwElse = false) :
    parse (first ++ second) firstId =
      { parse second (parse first firstId).nextId with
        statements := (parse first firstId).statements ++
          (parse second (parse first firstId).nextId).statements } := by
  by_cases hnil : second = []
  · subst hnil
    have hfailed : (parse first firstId).failed = false :=
      Bool.eq_false_iff.2 fun h => (parse_failed first firstId).1 h hclean
    rw [List.append_nil, parse_nil, List.append_nil, ← hclean, ← hfailed]
  have hbody : bodyOf (first ++ second) = first ++ second :=
    bodyOf_of_forall fun t ht => (List.mem_append.1 ht).elim (hfirst t) (hsecond t)
  have hstops : Stops [.kwElse] second := fun t rest h => by
    subst h
    simpa using helse t rfl
  obtain ⟨c, hr, hq, hid⟩ := ok_of_parse hclean
  have hover : (Cursor.ofTokens first firstId).Over .same second
      (Cursor.ofTokens (first ++ second) firstId) := by
    refine ⟨⟨bodyOf first, ?_, Token.allLike_refl _⟩, rfl⟩
    rw [bodyOf_of_forall hfirst]
    exact hbody
  -- `d` is where the first program ends in front of the other tokens
  obtain ⟨new, new', d, hnew, hlike, hread, hreach, hrest, hnext, herr⟩ :=
    programFrom_over hstops hover hr hq []
  obtain rfl := Stmt.Like.eq_all Likeness.exact_same hlike
  have hstart : d = Cursor.ofTokens second (parse first firstId).nextId := by
    rw [← hid, ← hnext]
    exact Cursor.eq_ofTokens (hrest.trans (bodyOf_of_forall hsecond).symm)
      (hreach.eof.trans (endOf_append hfirst hnil)) herr
      (hreach.flagged (by simp [Cursor.Flagged, Cursor.ofTokens]))
  obtain ⟨ss, d', hss⟩ := programFrom_found (c := d) (hreach.eof ▸ isEof_endOf _)
  have hjoined := parse_of_ok (hread.trans (hss _))
  have halone := parse_of_ok (hstart ▸ hss [])
  rw [hjoined, halone, hnew]
  simp

/-- `if (true) nil;`, and behind it `) ; print nil; var ;`, from which only the `print` is read. -/
theorem parse_behind_broken :
    let symbol (s : Symbol) : Token := ⟨.symbol s, s.text, 1⟩
    let first := [symbol .kwIf, symbol .leftParen, symbol .kwTrue, symbol .rightParen,
      symbol .kwNil, symbol .semicolon]
    let second := [symbol .rightParen, symbol .semicolon, symbol .kwPrint, symbol .kwNil,
      symbol .semicolon, symbol .kwVar, symbol .semicolon]
    (parse (first ++ second) 0).statements =
        [.cond (.literal (.bool true)) (.expression (.literal .nil)) none,
          .print (.literal .nil)] ∧
      (parse (first ++ second) 0).errors =
        [⟨symbol .rightParen, .expectedExpression⟩,
          ⟨symbol .semicolon, .expectedName .variableDecl⟩] := by
  intro symbol first second
  have hclean : (parse first 0).errors = [] := by with_unfolding_all rfl
  have h := parse_behind first second 0 (by decide) (by decide) hclean (by decide)
  rw [h]
  constructor
  · with_unfolding_all rfl
  · with_unfolding_all rfl

end Lox.Grammar
