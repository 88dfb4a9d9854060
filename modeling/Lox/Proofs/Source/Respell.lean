/-
Tokens can be written back. Lexemes with a space between any two of them are
read as the tokens that they are lexemes of, whatever the source was that these
come from (`scan_respell`).
-/
import Lox.Proofs.Source.Join
import Lox.Proofs.Text.Encode

namespace Lox

/-- What a token is, wherever it stands. -/
def Token.content (t : Token) : TokenKind × String := (t.kind, t.lexeme)

namespace Source

/-- Tokens as a text, with a space between any two. -/
def respell (tokens : List Token) : String := " ".intercalate (tokens.map Token.lexeme)

/-- The space between two tokens. -/
def space : UInt8 := 0x20

theorem encode_respell_cons (t t' : Token) (tokens : List Token) :
    Utf8.encode (respell (t :: t' :: tokens)) =
      Utf8.encode t.lexeme ++ space :: Utf8.encode (respell (t' :: tokens)) := by
  have hspace : Utf8.encode " " = [space] := by decide +kernel
  simp only [respell, List.map_cons, String.intercalate_cons_cons, Utf8.encode_append, hspace,
    List.append_assoc, List.singleton_append]

/-! ## Lexemes as texts -/

/-- A string lexeme is its text between two quotes. -/
theorem lenient_quoted (body : List UInt8) :
    Utf8.lenient (quote :: body ++ [quote]) = "\"" ++ Utf8.lenient body ++ "\"" := by
  have hquote : quote < 0x80 := by decide
  rw [Utf8.lenient_append hquote, Utf8.lenient_cons hquote, Utf8.lenient_cons hquote,
    show Utf8.lenient [] = "" by rw [Utf8.lenient, Utf8.pieces_nil]; rfl, String.append_empty]
  rfl

theorem encode_quoted (text : String) :
    Utf8.encode ("\"" ++ text ++ "\"") = quote :: Utf8.encode text ++ [quote] := by
  have hquote : Utf8.encode "\"" = [quote] := by decide +kernel
  rw [Utf8.encode_append, Utf8.encode_append, hquote, List.singleton_append]

/-- What is not a string is spelled with ASCII. -/
theorem Lexeme.ascii {kind : TokenKind} {w : List UInt8} (h : Lexeme kind w)
    (hs : ∀ text, kind ≠ .string text) : ∀ b ∈ w, b < 0x80 := by
  have digits {w : List UInt8} (hw : Digits w) : ∀ b ∈ w, b < 0x80 := fun b hb =>
    ascii_of_isDigit (hw.2 b hb)
  cases h with
  | mark hmem =>
    have : ∀ s ∈ Symbol.marks, ∀ b ∈ spelling s, b < 0x80 := by decide +kernel
    exact this _ hmem
  | keyword hmem =>
    have : ∀ s ∈ Symbol.keywords, ∀ b ∈ spelling s, b < 0x80 := by decide +kernel
    exact this _ hmem
  | name hb hword =>
    refine List.forall_mem_cons.2 ⟨ascii_of_isWord _ ?_, fun c hc => ascii_of_isWord c (hword c hc)⟩
    rw [isWord, hb, Bool.true_or]
  | whole hd => exact digits hd
  | fraction hd hf =>
    intro b hb
    rcases List.mem_append.1 hb with hb | hb
    · exact digits hd b hb
    rcases List.mem_cons.1 hb with rfl | hb
    · decide
    · exact digits hf b hb
  | string => exact absurd rfl (hs _)

/-- The text of a lexeme is a lexeme of the same kind. -/
theorem Lexeme.respelled {kind : TokenKind} {w : List UInt8} (h : Lexeme kind w) :
    Lexeme kind (Utf8.encode (Utf8.lenient w)) := by
  by_cases hs : ∀ text, kind ≠ .string text
  · rwa [Utf8.encode_lenient_of_ascii (h.ascii hs)]
  · cases h with
    | @string body hq =>
      have hquote : quote < 0x80 := by decide
      have hq' : quote ∉ Utf8.encode (Utf8.lenient body) := fun hmem =>
        hq (Utf8.mem_of_mem_lenient hquote (Utf8.mem_encode hquote hmem))
      have hlexeme := Lexeme.string hq'
      rw [Utf8.lenient_encode] at hlexeme
      rw [lenient_quoted, encode_quoted]
      exact hlexeme
    | _ => exact absurd (fun _ => TokenKind.noConfusion) hs

/-! ## Reading lexemes -/

/-- A lexeme in front of white space, or of the end, is read as itself. -/
theorem Cursor.itemsAfter_lexeme {c : Cursor} {kind : TokenKind} {w tail : List UInt8}
    (h : Lexeme kind w) (he : c.ended = false) (hc : c.rest = w ++ tail)
    (ht : ∀ s ∈ tail.head?, isSpace s = true) : ∃ (i : Item) (line : Nat) (c' : Cursor),
      c.itemsAfter [] = i :: c'.itemsAfter [] ∧
      i.found = .token ⟨kind, Utf8.lenient w, line⟩ ∧ c'.rest = tail ∧ c'.ended = false := by
  obtain ⟨b, w, rfl⟩ := List.exists_cons_of_ne_nil h.ne_nil
  have hcut : cut b (w ++ tail) = ⟨.token kind, b :: w, tail⟩ := by
    cases tail with
    | nil => rw [List.append_nil, h.cut]
    | cons s more =>
      have hp : (cut b w).piece = .token kind := by rw [h.cut]
      have hbefore : cut b (w ++ s :: more) = (cut b w).before (s :: more) :=
        cut_space more (ht s rfl) (by rw [hp]; exact Piece.noConfusion)
          (.inr (by rw [hp]; exact Piece.noConfusion))
      rw [hbefore, h.cut]
      rfl
  have hnext := itemsAfter_cut (show c.rest = b :: (w ++ tail) from hc) he
  rw [hcut] at hnext
  exact ⟨_, _, _, hnext, rfl, rfl, he⟩

/-- Lexemes with a space between any two are read as their tokens. -/
theorem Cursor.itemsAfter_respell {tokens : List Token}
    (h : ∀ t ∈ tokens, Lexeme t.kind (Utf8.encode t.lexeme)) {c : Cursor} (he : c.ended = false)
    (hc : c.rest = Utf8.encode (respell tokens)) :
    (tokensOf (c.itemsAfter [])).map Token.content = tokens.map Token.content ++ [(.eof, "")] ∧
      faultsOf (c.itemsAfter []) = [] := by
  have found {i : Item} {t : Token} {line : Nat} {rest : List Item}
      (hi : i.found = .token ⟨t.kind, Utf8.lenient (Utf8.encode t.lexeme), line⟩) :
      (tokensOf (i :: rest)).map Token.content = t.content :: (tokensOf rest).map Token.content ∧
        faultsOf (i :: rest) = faultsOf rest := by
    rw [Utf8.lenient_encode] at hi
    simp only [tokensOf, faultsOf, List.filterMap_cons, hi, List.map_cons, Token.content, and_self]
  induction tokens generalizing c with
  | nil =>
    rw [itemsAfter_end (hc.trans (by decide +kernel)) he]
    exact ⟨rfl, rfl⟩
  | cons t rest ih =>
    obtain ⟨ht, hrest⟩ := List.forall_mem_cons.1 h
    cases rest with
    | nil =>
      have hc' : c.rest = Utf8.encode t.lexeme ++ [] := by rw [hc, List.append_nil]; rfl
      obtain ⟨i, line, c', hitems, hi, hend, he'⟩ := itemsAfter_lexeme ht he hc' (by simp)
      rw [hitems, (found hi).1, (found hi).2, itemsAfter_end hend he']
      exact ⟨rfl, rfl⟩
    | cons t' rest =>
      rw [encode_respell_cons] at hc
      obtain ⟨i, line, c', hitems, hi, hbehind, he'⟩ := itemsAfter_lexeme ht he hc
        (by rintro _ ⟨⟩; rfl)
      have hblank : c'.itemsAfter [] =
          (c'.past (cut space (Utf8.encode (respell (t' :: rest))))).itemsAfter [] :=
        itemsAfter_cut hbehind he'
      obtain ⟨htokens, hfaults⟩ := ih hrest he'
        (c := c'.past (cut space (Utf8.encode (respell (t' :: rest))))) rfl
      rw [hitems, (found hi).1, (found hi).2, hblank, htokens, hfaults]
      exact ⟨rfl, rfl⟩

/-- The tokens of a source are lexemes, and strings have the texts between their quotes. -/
theorem lexeme_of_mem_scan {source : List UInt8} {t : Token} (h : t ∈ (scan source).tokens)
    (he : t.isEof = false) : ∃ w, Lexeme t.kind w ∧ t.lexeme = Utf8.lenient w := by
  have hstart : (Cursor.ofBytes source).offset = ([] : List UInt8).length := rfl
  obtain ⟨found, hlaid, hitems⟩ := Cursor.laid rfl hstart rfl
  obtain ⟨i, hi, hf⟩ := List.mem_filterMap.1 h
  rw [items, hitems, List.mem_append, List.mem_singleton] at hi
  cases hi with
  | inl hi =>
    obtain ⟨w, after, -, hfits⟩ := hlaid.fits i hi
    cases hi : i.found with
    | fault line f =>
      rw [hi] at hf
      cases hf
    | token u =>
      rw [hi] at hf hfits
      cases hf
      exact ⟨w, hfits.1.lexeme, hfits.2⟩
  | inr hi =>
    subst hi
    cases hf
    cases he

/-- The tokens of any source, written back without the end, are read without a fault as the same
tokens, on other lines perhaps. -/
theorem scan_respell (source : List UInt8) : ∃ body,
    (scan source).tokens = body ++ [.eof (1 + source.count lineFeed)] ∧
    (∀ t ∈ body, t.isEof = false) ∧
    (∀ t ∈ body, ∀ text, t.kind = .string text → t.lexeme = "\"" ++ text ++ "\"") ∧
    (scan (Utf8.encode (respell body))).errors = [] ∧
    (scan (Utf8.encode (respell body))).failed = false ∧
    ∃ body' line, (scan (Utf8.encode (respell body))).tokens = body' ++ [.eof line] ∧
      body'.map Token.content = body.map Token.content := by
  obtain ⟨body, hbody, htokens⟩ := scan_end source
  have hlexeme : ∀ t ∈ body, ∃ w, Lexeme t.kind w ∧ t.lexeme = Utf8.lenient w := fun t ht =>
    lexeme_of_mem_scan (htokens ▸ List.mem_append_left _ ht) (hbody t ht)
  have hrespelled : ∀ t ∈ body, Lexeme t.kind (Utf8.encode t.lexeme) := fun t ht => by
    obtain ⟨w, hw, hspell⟩ := hlexeme t ht
    exact hspell ▸ hw.respelled
  obtain ⟨hread, hquiet⟩ := Cursor.itemsAfter_respell hrespelled
    (c := .ofBytes (Utf8.encode (respell body))) rfl rfl
  obtain ⟨body', -, htokens'⟩ := scan_end (Utf8.encode (respell body))
  refine ⟨body, htokens, hbody, fun t ht text hk => ?_, hquiet, ?_, body', _, htokens', ?_⟩
  · obtain ⟨w, hw, hspell⟩ := hlexeme t ht
    rw [hk] at hw
    cases hw
    rw [hspell, lenient_quoted]
  · exact Bool.eq_false_iff.2 fun hf => (scan_failed _).1 hf hquiet
  · have hboth : body'.map Token.content ++ [(.eof, "")] =
        body.map Token.content ++ [(.eof, "")] := by
      have hall := congrArg (List.map Token.content) htokens'
      rw [List.map_append] at hall
      exact hall.symm.trans hread
    exact List.append_cancel_right hboth

end Source

end Lox
