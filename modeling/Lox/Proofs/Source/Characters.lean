/-
Characters. A source that is text is cut between its characters only: an ASCII
byte ends a space, a token and a string, and what else ends a piece is no tail
byte (`split_of_fits`). So every item stands on whole characters
(`Laid.characters`), and the characters at which nothing can be read are those
outside of all tokens, strings and comments that are no white space
(`characters_whole`).
-/
import Lox.Proofs.Source.Lines
import Lox.Proofs.Source.Respell
import Lox.Proofs.Text.Boundary
import Mathlib.Data.List.Basic
import Mathlib.Data.List.Pairwise

namespace Lox.Source

open Utf8 (bytesOf)

/-! ## Pieces of a text -/

theorem ascii_of_isSpace : ∀ b, isSpace b = true → b < 0x80 := forall_byte (by decide +kernel)

/-- A lexeme ends with an ASCII byte. -/
theorem Lexeme.eq_concat {kind : TokenKind} {w : List UInt8} (h : Lexeme kind w) :
    ∃ u q, w = u ++ [q] ∧ q < 0x80 := by
  by_cases hs : ∀ text, kind ≠ .string text
  · refine ⟨_, _, (List.dropLast_concat_getLast h.ne_nil).symm, ?_⟩
    exact h.ascii hs _ (List.getLast_mem h.ne_nil)
  · cases h with
    | string => exact ⟨_, quote, rfl, by decide⟩
    | _ => exact absurd (fun _ => TokenKind.noConfusion) hs

/-- A piece of a text takes whole characters and leaves whole characters. -/
theorem split_of_fits {cs : List Char} {w after : List UInt8} {p : Piece}
    (h : bytesOf cs = w ++ after) (hp : p.Fits w after) :
    ∃ ds es, cs = ds ++ es ∧ w = bytesOf ds ∧ after = bytesOf es := by
  have ascii {u : List UInt8} {q : UInt8} (hq : q < 0x80) (hw : w = u ++ [q]) :
      ∃ ds es, cs = ds ++ es ∧ w = bytesOf ds ∧ after = bytesOf es := by
    rw [hw, List.append_assoc, List.singleton_append] at h
    rw [hw]
    exact Utf8.split_bytesOf_ascii hq h
  cases p with
  | blank =>
    rcases hp with ⟨b, hb, rfl⟩ | hcomment
    · exact ascii (u := []) (ascii_of_isSpace b hb) rfl
    · refine Utf8.split_bytesOf h fun b hb => ?_
      rcases hcomment.ends with rfl | hend
      · cases hb
      · rw [hend] at hb
        cases hb
        rfl
  | token kind =>
    obtain ⟨u, q, hw, hq⟩ := hp.lexeme.eq_concat
    exact ascii hq hw
  | fault f =>
    cases f with
    | unterminatedString =>
      refine Utf8.split_bytesOf h fun b hb => ?_
      rw [hp.ends] at hb
      cases hb
    | unexpected text =>
      refine Utf8.split_bytesOf h fun b hb => ?_
      rw [Bool.eq_false_iff, ne_eq, isTail_iff]
      exact hp.1.ends b hb

/-- A byte that starts no lexeme and the tail bytes behind it are one character of a text. -/
theorem Stray.eq_singleton {cs : List Char} {after : List UInt8} (h : Stray (bytesOf cs) after)
    (hne : cs ≠ []) : ∃ c, cs = [c] :=
  Utf8.eq_singleton_of_tails hne fun t ht => (isTail_iff t).2 (h.tails t ht)

/-! ## Items of a text -/

theorem Found.piece_fits {f : Found} {w after : List UInt8} (h : f.Fits w after) :
    ∃ p : Piece, p.Fits w after := by
  cases f with
  | token t => exact ⟨_, h.1⟩
  | fault line f => exact ⟨_, h⟩

/-- The characters `within` stand in a text from the byte `start` up to the byte `stop`. -/
structure Covers (text before within after : List Char) (start stop : Nat) : Prop where
  split : text = before ++ within ++ after
  start : (bytesOf before).length = start
  stop : (bytesOf (before ++ within)).length = stop

/-- Items that are laid out over characters stand on whole ones. -/
theorem Laid.characters {behind ahead : List UInt8} {is : List Item} (h : Laid behind ahead is)
    {bs cs : List Char} (hb : behind = bytesOf bs) (hc : ahead = bytesOf cs) :
    ∀ i ∈ is, ∃ before within after, Covers (bs ++ cs) before within after i.start i.stop ∧
      within ≠ [] ∧ i.found.Fits (bytesOf within) (bytesOf after) := by
  induction h generalizing bs cs with
  | done => exact List.forall_mem_nil _
  | @blank behind w after is hne hfits hlaid ih =>
    obtain ⟨ds, es, rfl, rfl, rfl⟩ := split_of_fits hc.symm hfits
    rw [← List.append_assoc]
    exact ih (by rw [hb, Utf8.bytesOf_append]) rfl
  | @item behind w after found is hne hfits hline hlaid ih =>
    obtain ⟨p, hp⟩ := Found.piece_fits hfits
    obtain ⟨ds, es, rfl, rfl, rfl⟩ := split_of_fits hc.symm hp
    refine List.forall_mem_cons.2 ⟨?_, ?_⟩
    · refine ⟨bs, ds, es, ⟨(List.append_assoc ..).symm, ?_, ?_⟩, ?_, hfits⟩
      · rw [hb]
      · rw [hb, Utf8.bytesOf_append]
      · rintro rfl
        exact hne rfl
    · rw [← List.append_assoc]
      exact ih (by rw [hb, Utf8.bytesOf_append]) rfl

/-- Every item of a text stands on whole characters, and on none just if it is the end. -/
theorem characters_of_mem {text : String} {i : Item} (h : i ∈ items (Utf8.encode text)) :
    ∃ before within after, Covers text.toList before within after i.start i.stop ∧
      (within ≠ [] ∧ i.found.Fits (bytesOf within) (bytesOf after) ∨
        within = [] ∧ ∃ line, i.found = .token (.eof line)) := by
  obtain ⟨found, hlaid, hitems⟩ := laid_items (Utf8.encode text)
  rw [hitems, List.mem_append, List.mem_singleton] at h
  rcases h with h | rfl
  · have hnone : ([] : List UInt8) = bytesOf [] := rfl
    obtain ⟨before, within, after, hcovers, hne, hfits⟩ :=
      hlaid.characters hnone (Utf8.encode_eq_bytesOf text) i h
    exact ⟨before, within, after, hcovers, .inl ⟨hne, hfits⟩⟩
  · refine ⟨text.toList, [], [], ⟨by simp, ?_, ?_⟩, .inr ⟨rfl, _, rfl⟩⟩
    · rw [Utf8.encode_eq_bytesOf]
    · rw [Utf8.encode_eq_bytesOf, List.append_nil]

/-- The text of a token is what it stands on, and a string is what stands between its quotes. -/
theorem Found.Fits.lexeme_eq {t : Token} {cs ds : List Char}
    (h : (Found.token t).Fits (bytesOf cs) (bytesOf ds)) : t.lexeme = String.ofList cs ∧
      ∀ payload, t.kind = .string payload → String.ofList cs = "\"" ++ payload ++ "\"" := by
  have hlexeme : t.lexeme = String.ofList cs := by
    rw [h.2, ← Utf8.encode_ofList, Utf8.lenient_encode]
  refine ⟨hlexeme, fun payload hk => ?_⟩
  have hstring := h.1.lexeme
  rw [hk] at hstring
  rw [← hlexeme, h.2]
  generalize bytesOf cs = w at hstring
  cases hstring with
  | string => exact lenient_quoted _

/-! ## Characters at which nothing can be read -/

/-- The white space of the language. -/
def blanks : List Char := [' ', '\r', '\t', '\n']

theorem mem_blanks : ∀ b, isSpace b = true → Char.ofNat b.toNat ∈ blanks :=
  forall_byte (by decide +kernel)

theorem isSpace_of_mem_blanks : ∀ c ∈ blanks, ∃ b, String.utf8EncodeChar c = [b] ∧ isSpace b = true := by
  simp only [blanks, List.forall_mem_cons]
  exact ⟨⟨_, rfl, rfl⟩, ⟨_, rfl, rfl⟩, ⟨_, rfl, rfl⟩, ⟨_, rfl, rfl⟩, nofun⟩

/-- The character `c` begins at the byte `p` of a text. -/
def CharAt (text : String) (p : Nat) (c : Char) : Prop :=
  ∃ before after, text.toList = before ++ c :: after ∧ (bytesOf before).length = p

/-- The byte `p` of a source is outside of all tokens, strings and comments. A comment is one only
outside of the items. -/
structure Loose (source : List UInt8) (p : Nat) : Prop where
  noToken : ∀ i ∈ items source, ∀ t, i.found = .token t → ¬ (i.start ≤ p ∧ p < i.stop)
  noString : ∀ i ∈ items source, ∀ line, i.found = .fault line .unterminatedString →
    ¬ (i.start ≤ p ∧ p < i.stop)
  noComment : ∀ w after start stop, Stands source w after start stop → Comment w after →
    (∀ i ∈ items source, i.stop ≤ start ∨ stop ≤ i.start) → ¬ (start ≤ p ∧ p < stop)

section

variable {text : String} {i : Item} {line : Nat} {name : String}

/-- What is reported as unexpected is one character, and no white space. -/
theorem covers_of_unexpected (h : i ∈ items (Utf8.encode text))
    (hf : i.found = .fault line (.unexpected name)) : ∃ before c after,
      Covers text.toList before [c] after i.start i.stop ∧ name = String.singleton c ∧
        c ∉ blanks := by
  obtain ⟨before, within, after, hcovers, ⟨hne, hfits⟩ | ⟨-, n, he⟩⟩ := characters_of_mem h
  · rw [hf] at hfits
    obtain ⟨hstray, hname⟩ : Stray _ _ ∧ name = _ := hfits
    obtain ⟨c, rfl⟩ := hstray.eq_singleton hne
    refine ⟨before, c, after, hcovers, ?_, fun hc => ?_⟩
    · rw [hname, ← Utf8.encode_ofList, Utf8.lenient_encode]
      rfl
    · obtain ⟨b, hb, hspace⟩ := isSpace_of_mem_blanks c hc
      have := hstray.noBlank b (by rw [Utf8.bytesOf_cons, hb]; rfl)
      rw [hspace] at this
      cases this
  · rw [hf] at he
    cases he

/-- Items do not lie over each other. -/
theorem starts_ordered (source : List UInt8) :
    (items source).Pairwise fun i j => i.start < j.start ∧ i.stop ≤ j.start := by
  obtain ⟨found, hlaid, hitems⟩ := laid_items source
  have hwithin := hlaid.within
  rw [hitems, List.pairwise_append]
  refine ⟨?_, List.pairwise_singleton _ _, fun i hi j hj => ?_⟩
  · exact hlaid.ordered.imp_of_mem fun hi _ hle => ⟨Nat.lt_of_lt_of_le (hwithin _ hi).2.1 hle, hle⟩
  · obtain ⟨-, hlt, hle⟩ := hwithin i hi
    rw [List.mem_singleton.1 hj]
    exact ⟨Nat.lt_of_lt_of_le hlt hle, hle⟩

/-- An item that has the byte at which another one starts is that one. -/
theorem eq_of_start_within {source : List UInt8} {i j : Item} (hi : i ∈ items source)
    (hj : j ∈ items source) (hlt : i.start < i.stop) (hp : j.start ≤ i.start ∧ i.start < j.stop) :
    j = i := by
  have hapart : (items source).Pairwise fun i j => i.stop ≤ j.start ∨ j.stop ≤ i.start :=
    (starts_ordered source).imp fun h => .inl h.2
  have : Std.Symm fun i j : Item => i.stop ≤ j.start ∨ j.stop ≤ i.start := ⟨fun _ _ => Or.symm⟩
  by_contra hne
  have := hapart.forall hj hi hne
  omega

/-- The byte of an unexpected character is outside of all else. -/
theorem loose_of_unexpected (h : i ∈ items (Utf8.encode text))
    (hf : i.found = .fault line (.unexpected name)) : Loose (Utf8.encode text) i.start := by
  obtain ⟨before, c, after, hcovers, -⟩ := covers_of_unexpected h hf
  have hlt : i.start < i.stop := by
    obtain ⟨b, tail, hc, -⟩ := Utf8.encodeChar_eq_cons c
    rw [← hcovers.start, ← hcovers.stop, Utf8.bytesOf_append, Utf8.bytesOf_cons, hc]
    simp
  refine ⟨fun j hj t ht hp => ?_, fun j hj n hs hp => ?_, fun w rest start stop _ _ hout hp => ?_⟩
  · rw [eq_of_start_within h hj hlt hp, hf] at ht
    cases ht
  · rw [eq_of_start_within h hj hlt hp, hf] at hs
    cases hs
  · have := hout i h
    omega

/-- What stands at a byte of a text is the character that begins there. -/
theorem CharAt.eq_encodeChar {p : Nat} {c : Char} {before after w : List UInt8} (h : CharAt text p c)
    (hsplit : Utf8.encode text = before ++ w ++ after) (hp : before.length = p) :
    ∃ rest, w ++ after = String.utf8EncodeChar c ++ rest := by
  obtain ⟨bs, cs, htext, rfl⟩ := h
  rw [Utf8.encode_eq_bytesOf, htext, Utf8.bytesOf_append, Utf8.bytesOf_cons, List.append_assoc] at hsplit
  exact ⟨_, (List.append_inj_right hsplit hp.symm).symm⟩

/-- A character outside of all tokens, strings and comments that is no white space is reported. -/
theorem unexpected_of_loose {p : Nat} {c : Char} (h : CharAt text p c) (hc : c ∉ blanks)
    (hl : Loose (Utf8.encode text) p) : ∃ i ∈ items (Utf8.encode text), i.start = p ∧
      ∃ line, i.found = .fault line (.unexpected (String.singleton c)) := by
  obtain ⟨found, hlaid, hitems⟩ := laid_items (Utf8.encode text)
  have hmem {i : Item} (hi : i ∈ found) : i ∈ items (Utf8.encode text) :=
    hitems ▸ List.mem_append_left _ hi
  by_cases hin : ∃ i ∈ found, i.start ≤ p ∧ p < i.stop
  · obtain ⟨i, hi, hp⟩ := hin
    cases hf : i.found with
    | token t => exact absurd hp (hl.noToken i (hmem hi) t hf)
    | fault line f =>
      cases f with
      | unterminatedString => exact absurd hp (hl.noString i (hmem hi) line hf)
      | unexpected name =>
        obtain ⟨before, d, after, hcovers, rfl, -⟩ := covers_of_unexpected (hmem hi) hf
        obtain ⟨before', after', htext, hstart⟩ := h
        have hsplit : before ++ d :: after = before' ++ c :: after' := by
          rw [← htext, hcovers.split, List.append_assoc, List.singleton_append]
        obtain ⟨rfl, rfl⟩ := Utf8.eq_of_between hsplit (by rw [hcovers.start, hstart]; exact hp.1)
          (by rw [hcovers.stop, hstart]; exact hp.2)
        exact ⟨i, hmem hi, hcovers.start.symm.trans hstart, line, hf⟩
  · have hlt : p < (Utf8.encode text).length := by
      obtain ⟨before, after, htext, rfl⟩ := h
      obtain ⟨b, tail, hb, -⟩ := Utf8.encodeChar_eq_cons c
      rw [Utf8.encode_eq_bytesOf, htext, Utf8.bytesOf_append, Utf8.bytesOf_cons, hb]
      simp
    obtain ⟨w, after, start, stop, hstands, hle, hlt', hfits, hapart⟩ :=
      hlaid.tiling.covered p hlt fun i hi hp => hin ⟨i, hi, hp⟩
    obtain ⟨⟨before, hsplit, hbefore⟩, hlength⟩ := hstands
    rcases hfits with ⟨b, hb, rfl⟩ | hcomment
    · have hp : start = p := by
        rw [List.length_singleton] at hlength
        omega
      obtain ⟨rest, hrest⟩ := h.eq_encodeChar hsplit (hbefore.trans hp)
      obtain ⟨b', tail, hchar, -⟩ := Utf8.encodeChar_eq_cons c
      rw [hchar] at hrest
      have hfirst : b ∈ String.utf8EncodeChar c := by
        rw [hchar, (List.cons.inj hrest).1]
        exact List.mem_cons_self ..
      exact absurd (Utf8.eq_of_mem_encodeChar (ascii_of_isSpace b hb) hfirst ▸ mem_blanks b hb) hc
    · refine absurd ⟨hle, hlt'⟩ (hl.noComment w after start stop ⟨⟨before, hsplit, hbefore⟩, hlength⟩
        hcomment fun i hi => ?_)
      rw [hitems, List.mem_append, List.mem_singleton] at hi
      rcases hi with hi | rfl
      · exact hapart i hi
      · right
        rw [hsplit]
        simp only [List.length_append]
        omega

end

/-! ## Reports -/

/-- The message about an unexpected character. -/
def unexpected? : Diagnostic → Option String
  | .lex _ (.unexpected name) => some (LexFault.unexpected name).message
  | _ => none

/-- The place of an unexpected character and the message about it. -/
def Item.unexpected? (i : Item) : Option (Nat × String) :=
  match i.found with
  | .fault _ (.unexpected name) => some (i.start, (LexFault.unexpected name).message)
  | _ => none

/-- The place of an unexpected character, and the character. -/
def Item.stray? (i : Item) : Option (Nat × Char) :=
  match i.found with
  | .fault _ (.unexpected name) => name.toList.head?.map fun c => (i.start, c)
  | _ => none

theorem Item.stray?_eq_some {i : Item} {p : Nat} {c : Char} (h : i.stray? = some (p, c)) :
    i.start = p ∧ ∃ line name, i.found = .fault line (.unexpected name) ∧ name.toList.head? = some c := by
  unfold stray? at h
  split at h
  next line name hf =>
    obtain ⟨d, hd, he⟩ := Option.map_eq_some_iff.1 h
    cases he
    exact ⟨rfl, line, name, hf, hd⟩
  next => cases h

theorem filterMap_unexpected?_faultsOf (is : List Item) :
    (faultsOf is).filterMap unexpected? = (is.filterMap Item.unexpected?).map Prod.snd := by
  rw [faultsOf, List.filterMap_filterMap, List.map_filterMap]
  refine List.filterMap_congr fun i _ => ?_
  obtain ⟨start, stop, found⟩ := i
  cases found with
  | token t => rfl
  | fault line f => cases f <;> rfl

/-- In a source that is a text, every item stands between two characters of it, the text of a token
is a part of it and so is that of a string, and the characters that are reported are, in their
order, those outside of tokens, strings and comments that are no white space, each by itself. -/
theorem characters_whole {source : List UInt8} {text : String} (h : Utf8.strict source = .ok text) :
    (∀ i ∈ items source, ∃ before within after : String, text = before ++ within ++ after ∧
      (Utf8.encode before).length = i.start ∧ (Utf8.encode (before ++ within)).length = i.stop ∧
      ∀ t, i.found = .token t → t.lexeme = within ∧
        ∀ payload, t.kind = .string payload → within = "\"" ++ payload ++ "\"") ∧
    ∃ strays : List (Nat × Char), (strays.Pairwise fun s s' => s.1 < s'.1) ∧
      (∀ p c, (p, c) ∈ strays ↔
        CharAt text p c ∧ c ∉ [' ', '\r', '\t', '\n'] ∧ Loose source p) ∧
      (items source).filterMap Item.unexpected? =
        strays.map (fun s => (s.1, "Unexpected character: " ++ String.singleton s.2)) ∧
      (scan source).errors.filterMap unexpected? =
        strays.map fun s => "Unexpected character: " ++ String.singleton s.2 := by
  obtain rfl := Utf8.strict_eq_ok_iff.1 h
  have hmessages : (items (Utf8.encode text)).filterMap Item.unexpected? =
      ((items (Utf8.encode text)).filterMap Item.stray?).map
        fun s => (s.1, "Unexpected character: " ++ String.singleton s.2) := by
    rw [List.map_filterMap]
    refine List.filterMap_congr fun i hi => ?_
    cases hf : i.found with
    | token t => simp only [Item.unexpected?, Item.stray?, hf]; rfl
    | fault line f =>
      cases f with
      | unterminatedString => simp only [Item.unexpected?, Item.stray?, hf]; rfl
      | unexpected name =>
        obtain ⟨before, c, after, -, rfl, -⟩ := covers_of_unexpected hi hf
        simp only [Item.unexpected?, Item.stray?, hf, String.toList_singleton]
        rfl
  refine ⟨fun i hi => ?_, (items (Utf8.encode text)).filterMap Item.stray?, ?_, fun p c => ?_,
    hmessages, ?_⟩
  · obtain ⟨before, within, after, hcovers, hwhat⟩ := characters_of_mem hi
    refine ⟨.ofList before, .ofList within, .ofList after, ?_, ?_, ?_, fun t ht => ?_⟩
    · rw [← String.toList_inj, hcovers.split]
      simp
    · rw [Utf8.encode_ofList, hcovers.start]
    · rw [← String.ofList_append, Utf8.encode_ofList, hcovers.stop]
    · rcases hwhat with ⟨-, hfits⟩ | ⟨rfl, line, he⟩
      · rw [ht] at hfits
        exact hfits.lexeme_eq
      · rw [ht] at he
        cases he
        exact ⟨rfl, nofun⟩
  · rw [List.pairwise_filterMap]
    refine (starts_ordered _).imp fun hlt s hs s' hs' => ?_
    rw [← (Item.stray?_eq_some hs).1, ← (Item.stray?_eq_some hs').1]
    exact hlt.1
  · rw [List.mem_filterMap]
    constructor
    · rintro ⟨i, hi, hs⟩
      obtain ⟨rfl, line, name, hf, hname⟩ := Item.stray?_eq_some hs
      obtain ⟨before, d, after, hcovers, rfl, hd⟩ := covers_of_unexpected hi hf
      rw [String.toList_singleton] at hname
      cases hname
      refine ⟨⟨before, after, ?_, hcovers.start⟩, hd, loose_of_unexpected hi hf⟩
      rw [hcovers.split, List.append_assoc, List.singleton_append]
    · rintro ⟨hat, hc, hl⟩
      obtain ⟨i, hi, rfl, line, hf⟩ := unexpected_of_loose hat hc hl
      exact ⟨i, hi, by simp only [Item.stray?, hf, String.toList_singleton]; rfl⟩
  · show (faultsOf (items _)).filterMap unexpected? = _
    rw [filterMap_unexpected?_faultsOf, hmessages, List.map_map]
    rfl

/-- In `é"ü"//ö` only the first character is outside of all else: the others are in a string and in a
comment. -/
theorem characters_whole_umlauts :
    let source : List UInt8 := [0xC3, 0xA9, 0x22, 0xC3, 0xBC, 0x22, 0x2F, 0x2F, 0xC3, 0xB6]
    Utf8.strict source = .ok "é\"ü\"//ö" ∧
      (items source).filterMap Item.unexpected? = [(0, "Unexpected character: é")] ∧
      ∀ p c, CharAt "é\"ü\"//ö" p c ∧ c ∉ [' ', '\r', '\t', '\n'] ∧ Loose source p ↔
        p = 0 ∧ c = 'é' := by
  intro source
  have htext : Utf8.strict source = .ok "é\"ü\"//ö" := Utf8.strict_eq_ok_iff.2 (by decide +kernel)
  have hfound : (items source).filterMap Item.unexpected? = [(0, "Unexpected character: é")] := by
    decide +kernel
  obtain ⟨-, strays, -, hstrays, hmessages, -⟩ := characters_whole htext
  refine ⟨htext, hfound, fun p c => ?_⟩
  rw [hfound] at hmessages
  obtain ⟨⟨q, d⟩, rfl, hs⟩ := List.map_eq_singleton_iff.1 hmessages.symm
  obtain ⟨rfl, hd⟩ := Prod.mk.inj hs
  have hd : d = 'é' := by simpa using congrArg String.toList hd
  rw [← hstrays, hd, List.mem_singleton, Prod.mk.injEq]

end Lox.Source
