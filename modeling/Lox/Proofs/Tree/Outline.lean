/-
What the written form of a tree shows: words in nested parentheses. An `Outline`
is such a text by its parts. If no word of it has a blank or a parenthesis in it,
the text has only one outline (`Outline.text_inj`). The written form of a tree is
the text of its outline (`Stmt.text_outline`).
-/
import Lox.Tree.Printer
import Mathlib.Data.List.TakeWhile

namespace Lox

/-- A text in parentheses, by its parts. -/
inductive Outline
  | word (text : String)
  | list (parts : List Outline)

namespace Outline

/-! ## The text of an outline -/

mutual

/-- The text with these parts. -/
def text : Outline → String
  | word text => text
  | list parts => inParens (texts parts)

/-- The texts of outlines, each by itself. -/
def texts : List Outline → List String
  | [] => []
  | o :: rest => o.text :: texts rest

end

/-- The characters of parts, each behind a blank. -/
def spaced : List Outline → List Char
  | [] => []
  | o :: rest => ' ' :: (o.text.toList ++ spaced rest)

theorem toList_intercalate (o : Outline) (rest : List Outline) :
    (" ".intercalate (o.text :: texts rest)).toList = o.text.toList ++ spaced rest := by
  induction rest generalizing o with
  | nil => rw [texts, String.intercalate_singleton, spaced, List.append_nil]
  | cons o' rest ih =>
    have hblank : " ".toList = [' '] := by decide
    rw [texts, String.intercalate_cons_cons, String.toList_append, String.toList_append, ih, spaced,
      hblank, List.append_assoc, List.singleton_append]

theorem toList_list_nil : (list []).text.toList = ['(', ')'] := by decide +kernel

theorem toList_list_cons (o : Outline) (rest : List Outline) :
    (list (o :: rest)).text.toList = '(' :: (o.text.toList ++ (spaced rest ++ [')'])) := by
  have hopen : "(".toList = ['('] := by decide
  have hclose : ")".toList = [')'] := by decide
  rw [text, texts, inParens, String.toList_append, String.toList_append, toList_intercalate, hopen,
    hclose, List.singleton_append, List.cons_append, List.append_assoc]

/-! ## One outline for a text -/

/-- The characters that are in no word. -/
def isBreak (c : Char) : Bool := c == ' ' || c == '(' || c == ')'

theorem isBreak_iff {c : Char} : isBreak c = true ↔ c = ' ' ∨ c = '(' ∨ c = ')' := by
  rw [isBreak, Bool.or_eq_true, Bool.or_eq_true, beq_iff_eq, beq_iff_eq, beq_iff_eq, or_assoc]

/-- A word can be told from what is around it. -/
def PlainWord (text : String) : Prop := text ≠ "" ∧ ∀ c ∈ text.toList, isBreak c = false

instance (text : String) : Decidable (PlainWord text) :=
  decidable_of_iff (text ≠ "" ∧ text.toList.any isBreak = false)
    (and_congr_right fun _ => by rw [List.any_eq_false]; simp only [Bool.not_eq_true])

/-- All words in the outline can be told from what is around them. -/
inductive Plain : Outline → Prop
  | word {text} : PlainWord text → Plain (word text)
  | list {parts} : (∀ o ∈ parts, o.Plain) → Plain (list parts)

/-- A list with a word at its head. -/
theorem Plain.form {head : String} (h : PlainWord head) {parts : List Outline}
    (hparts : ∀ o ∈ parts, o.Plain) : Plain (.list (.word head :: parts)) :=
  .list (List.forall_mem_cons.2 ⟨.word h, hparts⟩)

/-- Nothing of a word is at the front: the word before it, if any, is at its end. -/
def Ends (cs : List Char) : Prop := ∀ c ∈ cs.head?, isBreak c = true

theorem ends_close (cs : List Char) : Ends (')' :: cs) := by
  rintro c ⟨⟩
  rfl

/-- Behind a part comes a blank with the next one, or the end of the list. -/
theorem ends_spaced (rest : List Outline) (cs : List Char) : Ends (spaced rest ++ ')' :: cs) := by
  cases rest with
  | nil => exact ends_close cs
  | cons o rest =>
    rintro c ⟨⟩
    rfl

theorem takeWhile_word {text : String} (h : PlainWord text) {cs : List Char} (hcs : Ends cs) :
    (text.toList ++ cs).takeWhile (fun c => !isBreak c) = text.toList := by
  have hrest : cs.takeWhile (fun c => !isBreak c) = [] := by
    cases cs with
    | nil => rfl
    | cons c cs => rw [List.takeWhile_cons, hcs c rfl, Bool.not_true, if_neg Bool.false_ne_true]
  rw [List.takeWhile_append_of_pos fun c hc => by rw [h.2 c hc, Bool.not_false], hrest,
    List.append_nil]

/-- A word with its end behind it ends in one place only. -/
theorem word_inj {text text' : String} (h : PlainWord text) (h' : PlainWord text')
    {cs ds : List Char} (hcs : Ends cs) (hds : Ends ds)
    (heq : text.toList ++ cs = text'.toList ++ ds) : text = text' ∧ cs = ds := by
  have htext : text.toList = text'.toList := by
    rw [← takeWhile_word h hcs, heq, takeWhile_word h' hds]
  refine ⟨String.toList_inj.1 htext, ?_⟩
  rw [htext] at heq
  exact List.append_cancel_left heq

/-- A word starts with one of its characters. -/
theorem PlainWord.toList_eq {text : String} (h : PlainWord text) :
    ∃ c cs, text.toList = c :: cs ∧ isBreak c = false := by
  obtain ⟨c, cs, hc⟩ := List.exists_cons_of_ne_nil fun hnil => h.1 (String.toList_eq_nil_iff.1 hnil)
  exact ⟨c, cs, hc, h.2 c (hc ▸ List.mem_cons_self)⟩

/-- A list starts with its parenthesis. -/
theorem toList_list (parts : List Outline) : ∃ cs, (list parts).text.toList = '(' :: cs := by
  cases parts with
  | nil => exact ⟨_, toList_list_nil⟩
  | cons o rest => exact ⟨_, toList_list_cons o rest⟩

/-- A word is not a list. -/
theorem word_ne_list {text : String} (h : PlainWord text) (parts : List Outline)
    (cs ds : List Char) : text.toList ++ cs ≠ (list parts).text.toList ++ ds := by
  intro heq
  obtain ⟨c, _, hc, hword⟩ := h.toList_eq
  obtain ⟨_, hparts⟩ := toList_list parts
  rw [hc, hparts, List.cons_append, List.cons_append, List.cons.injEq] at heq
  rw [heq.1] at hword
  exact absurd hword (by decide)

/-- No part starts with the end of a list. -/
theorem Plain.ne_close {o : Outline} (h : o.Plain) (cs ds : List Char) :
    o.text.toList ++ cs ≠ ')' :: ds := by
  intro heq
  cases h with
  | word h =>
    obtain ⟨c, _, hc, hword⟩ := h.toList_eq
    rw [text, hc, List.cons_append, List.cons.injEq] at heq
    rw [heq.1] at hword
    exact absurd hword (by decide)
  | list =>
    obtain ⟨_, hparts⟩ := toList_list _
    rw [hparts] at heq
    exact absurd (List.cons.inj heq).1 (by decide)

/-- A list with a part is not the empty list. -/
theorem list_cons_ne_nil {o : Outline} (h : o.Plain) (rest : List Outline) (cs ds : List Char) :
    (list (o :: rest)).text.toList ++ cs ≠ (list []).text.toList ++ ds := by
  intro heq
  simp only [toList_list_nil, toList_list_cons, List.cons_append, List.append_assoc,
    List.nil_append, List.cons.injEq, true_and] at heq
  exact h.ne_close _ _ heq

mutual

/-- The front of a text has one outline, whatever is behind it. -/
theorem front_inj : ∀ {o o' : Outline}, o.Plain → o'.Plain → ∀ {cs ds : List Char}, Ends cs →
    Ends ds → o.text.toList ++ cs = o'.text.toList ++ ds → o = o' ∧ cs = ds
  | word _, word _, .word h, .word h', _, _, hcs, hds, heq => by
    obtain ⟨rfl, hrest⟩ := word_inj h h' hcs hds heq
    exact ⟨rfl, hrest⟩
  | word _, list _, .word h, _, _, _, _, _, heq => absurd heq (word_ne_list h _ _ _)
  | list _, word _, _, .word h, _, _, _, _, heq => absurd heq.symm (word_ne_list h _ _ _)
  | list [], list [], _, _, _, _, _, _, heq => ⟨rfl, List.append_cancel_left heq⟩
  | list [], list (_ :: _), _, .list h, _, _, _, _, heq =>
    absurd heq.symm (list_cons_ne_nil (h _ List.mem_cons_self) _ _ _)
  | list (_ :: _), list [], .list h, _, _, _, _, _, heq =>
    absurd heq (list_cons_ne_nil (h _ List.mem_cons_self) _ _ _)
  | list (o :: os), list (o' :: os'), .list h, .list h', cs, ds, _, _, heq => by
    obtain ⟨ho, hos⟩ := List.forall_mem_cons.1 h
    obtain ⟨ho', hos'⟩ := List.forall_mem_cons.1 h'
    simp only [toList_list_cons, List.cons_append, List.append_assoc, List.nil_append,
      List.cons.injEq, true_and] at heq
    obtain ⟨hfirst, hmore⟩ := front_inj ho ho' (ends_spaced os cs) (ends_spaced os' ds) heq
    obtain ⟨hothers, hrest⟩ := spaced_inj os os' hos hos' hmore
    exact ⟨by rw [hfirst, hothers], hrest⟩

/-- So has what is left of a list, up to its end. -/
theorem spaced_inj : ∀ (os os' : List Outline), (∀ o ∈ os, o.Plain) → (∀ o ∈ os', o.Plain) →
    ∀ {cs ds : List Char}, spaced os ++ ')' :: cs = spaced os' ++ ')' :: ds → os = os' ∧ cs = ds
  | [], [], _, _, _, _, heq => ⟨rfl, (List.cons.inj heq).2⟩
  | [], _ :: _, _, _, _, _, heq => absurd (List.cons.inj heq).1 (by decide)
  | _ :: _, [], _, _, _, _, heq => absurd (List.cons.inj heq).1 (by decide)
  | o :: os, o' :: os', h, h', cs, ds, heq => by
    obtain ⟨ho, hos⟩ := List.forall_mem_cons.1 h
    obtain ⟨ho', hos'⟩ := List.forall_mem_cons.1 h'
    simp only [spaced, List.cons_append, List.append_assoc, List.cons.injEq, true_and] at heq
    obtain ⟨hfirst, hmore⟩ := front_inj ho ho' (ends_spaced os cs) (ends_spaced os' ds) heq
    obtain ⟨hothers, hrest⟩ := spaced_inj os os' hos hos' hmore
    exact ⟨by rw [hfirst, hothers], hrest⟩

end

/-- A text has one outline with plain words. -/
theorem text_inj {o o' : Outline} (h : o.Plain) (h' : o'.Plain) (heq : o.text = o'.text) :
    o = o' := by
  have hnil : Ends [] := fun _ hc => nomatch hc
  exact (front_inj h h' hnil hnil (by rw [heq])).1

end Outline

/-! ## The outlines of trees -/

/-- The outline of a token is its text. -/
def Token.outline (t : Token) : Outline := .word t.lexeme

mutual

/-- The outline of an expression. -/
def Expr.outline : Expr → Outline
  | .literal value => .word value.text
  | .grouping inner => .list [.word "group", inner.outline]
  | .unary op operand => .list [op.outline, operand.outline]
  | .binary left op right => .list [op.outline, left.outline, right.outline]
  | .logical left op right => .list [op.outline, left.outline, right.outline]
  | .variable _ name => name.outline
  | .assign _ name value => .list [.word "=", name.outline, value.outline]
  | .call callee _ args => .list (.word "call" :: callee.outline :: Expr.outlines args)
  | .get object name => .list [.word ".", object.outline, name.outline]
  | .set object name value =>
    .list [.word "=", .list [.word ".", object.outline, name.outline], value.outline]
  | .this _ _ => .word "this"

/-- The outlines of arguments. -/
def Expr.outlines : List Expr → List Outline
  | [] => []
  | e :: rest => e.outline :: Expr.outlines rest

end

mutual

/-- The outline of a statement. -/
def Stmt.outline : Stmt → Outline
  | .expression e => .list [.word ";", e.outline]
  | .print e => .list [.word "print", e.outline]
  | .var name none => .list [.word "var", name.outline]
  | .var name (some e) => .list [.word "var", name.outline, e.outline]
  | .block body => .list (.word "block" :: Stmt.outlines body)
  | .cond test thenPart none => .list [.word "if", test.outline, thenPart.outline]
  | .cond test thenPart (some elsePart) =>
    .list [.word "if", test.outline, thenPart.outline, elsePart.outline]
  | .while test body => .list [.word "while", test.outline, body.outline]
  | .function decl => decl.outline
  | .ret _ none => .list [.word "return"]
  | .ret _ (some e) => .list [.word "return", e.outline]
  | .class name methods => .list (.word "class" :: name.outline :: FunctionDecl.outlines methods)

/-- The outlines of statements. -/
def Stmt.outlines : List Stmt → List Outline
  | [] => []
  | s :: rest => s.outline :: Stmt.outlines rest

/-- The outline of a function or a method. -/
def FunctionDecl.outline : FunctionDecl → Outline
  | .mk name params body =>
    .list (.word "fun" :: name.outline :: .list (params.map Token.outline) :: Stmt.outlines body)

/-- The outlines of methods. -/
def FunctionDecl.outlines : List FunctionDecl → List Outline
  | [] => []
  | d :: rest => d.outline :: FunctionDecl.outlines rest

end

mutual

/-- The written form of an expression is the text of its outline. -/
theorem Expr.text_outline : ∀ e : Expr, e.outline.text = e.text
  | .literal _ | .variable .. | .this .. => rfl
  | .grouping e | .unary _ e | .assign _ _ e | .get e _ => by
    simp only [Expr.outline, Token.outline, Outline.text, Outline.texts, Expr.text_outline e,
      Expr.text]
  | .binary left _ right | .logical left _ right | .set left _ right => by
    simp only [Expr.outline, Token.outline, Outline.text, Outline.texts, Expr.text_outline left,
      Expr.text_outline right, Expr.text]
  | .call callee _ args => by
    simp only [Expr.outline, Outline.text, Outline.texts, Expr.text_outline callee,
      Expr.texts_outlines args, Expr.text]

theorem Expr.texts_outlines : ∀ es : List Expr, Outline.texts (Expr.outlines es) = Expr.texts es
  | [] => rfl
  | e :: rest => by
    simp only [Expr.outlines, Outline.texts, Expr.text_outline e, Expr.texts_outlines rest,
      Expr.texts]

end

theorem Token.texts_outlines (ts : List Token) :
    Outline.texts (ts.map Token.outline) = ts.map Token.lexeme := by
  induction ts with
  | nil => rfl
  | cons t rest ih => simp only [List.map_cons, Outline.texts, ih, Token.outline, Outline.text]

mutual

/-- The written form of a statement is the text of its outline. -/
theorem Stmt.text_outline : ∀ s : Stmt, s.outline.text = s.text
  | .expression e | .print e | .var _ (some e) | .ret _ (some e) => by
    simp only [Stmt.outline, Token.outline, Outline.text, Outline.texts, Expr.text_outline e,
      Stmt.text]
  | .var _ none | .ret _ none => rfl
  | .block body => by
    simp only [Stmt.outline, Outline.text, Outline.texts, Stmt.texts_outlines body, Stmt.text]
  | .cond test thenPart none | .while test thenPart => by
    simp only [Stmt.outline, Outline.text, Outline.texts, Expr.text_outline test,
      Stmt.text_outline thenPart, Stmt.text]
  | .cond test thenPart (some elsePart) => by
    simp only [Stmt.outline, Outline.text, Outline.texts, Expr.text_outline test,
      Stmt.text_outline thenPart, Stmt.text_outline elsePart, Stmt.text]
  | .function decl => by simp only [Stmt.outline, FunctionDecl.text_outline decl, Stmt.text]
  | .class _ methods => by
    simp only [Stmt.outline, Token.outline, Outline.text, Outline.texts,
      FunctionDecl.texts_outlines methods, Stmt.text]

theorem Stmt.texts_outlines : ∀ ss : List Stmt, Outline.texts (Stmt.outlines ss) = Stmt.texts ss
  | [] => rfl
  | s :: rest => by
    simp only [Stmt.outlines, Outline.texts, Stmt.text_outline s, Stmt.texts_outlines rest,
      Stmt.texts]

theorem FunctionDecl.text_outline : ∀ d : FunctionDecl, d.outline.text = d.text
  | .mk _ params body => by
    simp only [FunctionDecl.outline, Token.outline, Outline.text, Outline.texts,
      Token.texts_outlines params, Stmt.texts_outlines body, FunctionDecl.text]

theorem FunctionDecl.texts_outlines : ∀ ds : List FunctionDecl,
    Outline.texts (FunctionDecl.outlines ds) = FunctionDecl.texts ds
  | [] => rfl
  | d :: rest => by
    simp only [FunctionDecl.outlines, Outline.texts, FunctionDecl.text_outline d,
      FunctionDecl.texts_outlines rest, FunctionDecl.texts]

end

end Lox
