/-
A line feed keeps sources apart. Behind a source without lexical faults and a
line feed, another source has the tokens that it has alone, on later lines
(`scan_join`).
-/
import Lox.Proofs.Source.Items

namespace Lox

/-- The token on a later line. -/
def Token.down (k : Nat) (t : Token) : Token := { t with line := t.line + k }

namespace Source

/-! ## Cuts -/

section

variable {p : UInt8 → Bool} {s : UInt8} (h : p s = false) (bytes more : List UInt8)

include h

theorem takeWhile_before : (bytes ++ s :: more).takeWhile p = bytes.takeWhile p := by
  induction bytes with
  | nil => simp [h]
  | cons b rest ih => simp only [List.cons_append, List.takeWhile_cons, ih]

theorem dropWhile_before :
    (bytes ++ s :: more).dropWhile p = bytes.dropWhile p ++ s :: more := by
  induction bytes with
  | nil => simp [h]
  | cons b rest ih =>
    simp only [List.cons_append, List.dropWhile_cons, ih]
    split <;> rfl

end

/-- The same cut of a source with more bytes behind. -/
def Cut.before (p : Cut) (more : List UInt8) : Cut := { p with rest := p.rest ++ more }

variable {s : UInt8} (more : List UInt8)

theorem cutComment_lineFeed (bytes : List UInt8) :
    cutComment (bytes ++ lineFeed :: more) = (cutComment bytes).before (lineFeed :: more) := by
  have htake := takeWhile_before (p := (· != lineFeed)) (s := lineFeed) rfl bytes more
  have hdrop := dropWhile_before (p := (· != lineFeed)) (s := lineFeed) rfl bytes more
  simp only [cutComment, Cut.before, htake, hdrop]

/-- A string that is closed ends before whatever comes behind. -/
theorem cutString_before {bytes : List UInt8}
    (hq : (cutString bytes).piece ≠ .fault .unterminatedString) :
    cutString (bytes ++ more) = (cutString bytes).before more := by
  have hmem : ∃ b ∈ bytes, ¬ (b != quote) = true := by
    by_contra hno
    refine hq ?_
    have hnil : bytes.dropWhile (· != quote) = [] :=
      List.dropWhile_eq_nil_iff.2 fun b hb => by
        by_contra hb'
        exact hno ⟨b, hb, hb'⟩
    simp only [cutString, hnil]
  have hne : bytes.dropWhile (· != quote) ≠ [] := fun hnil => by
    obtain ⟨b, hb, hb'⟩ := hmem
    exact hb' (List.dropWhile_eq_nil_iff.1 hnil b hb)
  obtain ⟨close, after, hdrop⟩ := List.exists_cons_of_ne_nil hne
  have htake : (bytes ++ more).takeWhile (· != quote) = bytes.takeWhile (· != quote) := by
    rw [List.takeWhile_append, if_neg]
    intro hlen
    have := List.takeWhile_append_dropWhile (p := (· != quote)) (l := bytes)
    have := congrArg List.length this
    rw [List.length_append, hlen, hdrop, List.length_cons] at this
    omega
  have hdrop' : (bytes ++ more).dropWhile (· != quote) = close :: (after ++ more) := by
    rw [List.dropWhile_append, hdrop]
    rfl
  simp only [cutString, htake, hdrop, hdrop', Cut.before]

/-- White space stands in no number, word, mark or ill-formed character. -/
theorem inside_of_isSpace : ∀ s, isSpace s = true →
    isDigit s = false ∧ isWord s = false ∧ isTail s = false ∧ s ≠ 0x2E ∧ s ≠ 0x2F ∧ s ≠ 0x3D :=
  forall_byte (by decide +kernel)

/-- A number may end in front of a point, which white space is not a digit behind. -/
theorem cutNumber_space (h : isDigit s = false) (hp : s ≠ 0x2E) (b : UInt8)
    (bytes : List UInt8) :
    cutNumber b (bytes ++ s :: more) = (cutNumber b bytes).before (s :: more) := by
  simp only [cutNumber, takeWhile_before h, dropWhile_before h]
  generalize bytes.dropWhile isDigit = rest
  rcases rest with _ | ⟨c, _ | ⟨d, after⟩⟩
  · simp [hp, Cut.before]
  · by_cases hc : c = 0x2E
    · simp [hc, h, Cut.before]
    · simp [hc, Cut.before]
  · by_cases hc : c = 0x2E
    · simp only [hc, List.cons_append, takeWhile_before h, dropWhile_before h]
      split <;> rfl
    · simp [hc, Cut.before]

theorem cutWord_space (h : isWord s = false) (b : UInt8) (bytes : List UInt8) :
    cutWord b (bytes ++ s :: more) = (cutWord b bytes).before (s :: more) := by
  simp only [cutWord, Cut.before, takeWhile_before h, dropWhile_before h]

theorem cutUnexpected_space (h : isTail s = false) (b : UInt8) (bytes : List UInt8) :
    cutUnexpected b (bytes ++ s :: more) = (cutUnexpected b bytes).before (s :: more) := by
  simp only [cutUnexpected, Cut.before, takeWhile_before h, dropWhile_before h]

/-- All but a string that is not closed is cut off in front of white space as it is at the end of a
source; but only a line feed ends a comment. -/
theorem cut_space (hs : isSpace s = true) {b : UInt8} {bytes : List UInt8}
    (h : (cut b bytes).piece ≠ .fault .unterminatedString)
    (hc : s = lineFeed ∨ (cut b bytes).piece ≠ .blank) :
    cut b (bytes ++ s :: more) = (cut b bytes).before (s :: more) := by
  obtain ⟨hdigit, hword, htail, hpoint, hslash, hequal⟩ := inside_of_isSpace s hs
  have hcomment : (bytes ++ s :: more).head? = some 0x2F ↔ bytes.head? = some 0x2F := by
    cases bytes with
    | nil => simp [hslash]
    | cons c rest => exact Iff.rfl
  unfold cut at h hc ⊢
  simp only [hcomment]
  split
  · rfl
  split
  next hspace hslash =>
    rcases hc with rfl | hc
    · exact cutComment_lineFeed more bytes
    · rw [if_neg hspace, if_pos hslash] at hc
      exact absurd rfl hc
  split
  · simp only [*, if_true] at h
    exact cutString_before (s :: more) h
  split
  · exact cutNumber_space more hdigit hpoint b bytes
  split
  · exact cutWord_space more hword b bytes
  cases hm : equalMarks? b with
  | some marks =>
    obtain ⟨short, long⟩ := marks
    rcases bytes with _ | ⟨c, rest⟩
    · simp [hequal, Cut.before]
    · by_cases hc : c = 0x3D
      · simp [hc, Cut.before]
      · simp [hc, Cut.before]
  | none =>
    cases mark? b with
    | some s => rfl
    | none => exact cutUnexpected_space more htail b bytes

/-! ## Items -/

namespace Cursor

/-- The same place of a source with more bytes at its end. -/
def before (c : Cursor) (more : List UInt8) : Cursor := { c with rest := c.rest ++ more }

/-- Behind a line feed, a source goes on as if nothing of it had been known before. -/
theorem itemsAfter_before {c : Cursor} (he : c.ended = false)
    (hq : ∀ i ∈ c.itemsAfter [], ∀ l, i.found ≠ .fault l .unterminatedString) :
    ∃ found, c.itemsAfter [] = found ++ [⟨c.offset + c.rest.length, c.offset + c.rest.length,
        .token (.eof (c.line + c.rest.count lineFeed))⟩] ∧
      (c.before (lineFeed :: more)).itemsAfter [] = found ++ (⟨more, c.offset + c.rest.length + 1,
        c.line + c.rest.count lineFeed + 1, false⟩ : Cursor).itemsAfter [] := by
  induction hn : c.rest.length using Nat.strongRecOn generalizing c with
  | ind n ih =>
    subst hn
    cases hr : c.rest with
    | nil =>
      refine ⟨[], by rw [itemsAfter_end hr he]; rfl, ?_⟩
      have hnext : (c.before (lineFeed :: more)).rest = lineFeed :: more := by simp [before, hr]
      rw [itemsAfter_cut hnext he]
      exact congrArg (itemsAfter []) (congrArg (Cursor.mk more _ _) he)
    | cons b bytes =>
      rw [itemsAfter_cut hr he] at hq ⊢
      have hclosed : (cut b bytes).piece ≠ .fault .unterminatedString := fun hp => by
        have hi : c.item? (cut b bytes) = some ⟨c.offset, (c.past (cut b bytes)).offset,
            .fault (c.past (cut b bytes)).line .unterminatedString⟩ := by simp only [item?, hp]
        rw [hi] at hq
        exact hq _ (List.mem_cons_self ..) _ rfl
      have hnext : (c.before (lineFeed :: more)).rest = b :: (bytes ++ lineFeed :: more) := by
        simp [before, hr]
      obtain ⟨found, hf, hf'⟩ := ih _ (by rw [hr]; exact rest_length_lt b bytes)
        (c := c.past (cut b bytes)) he (fun i hi => hq i (List.mem_append_right _ hi)) rfl
      have hcut := taken_append_rest b bytes
      have hlength : (c.past (cut b bytes)).offset + (c.past (cut b bytes)).rest.length =
          c.offset + (b :: bytes).length := by
        rw [← hcut, List.length_append, ← Nat.add_assoc]
        rfl
      have hline : (c.past (cut b bytes)).line + (c.past (cut b bytes)).rest.count lineFeed =
          c.line + (b :: bytes).count lineFeed := by
        rw [← hcut, List.count_append, ← Nat.add_assoc]
        rfl
      rw [hlength, hline] at hf hf'
      refine ⟨(c.item? (cut b bytes)).toList ++ found, by rw [hf, List.append_assoc], ?_⟩
      rw [itemsAfter_cut hnext he, cut_space more rfl hclosed (.inl rfl), List.append_assoc, ← hf']
      rfl

/-- The same place further on in a longer source. -/
def later (c : Cursor) (o k : Nat) : Cursor := { c with offset := c.offset + o, line := c.line + k }

end Cursor

/-- The same thing found on a later line. -/
def Found.down (k : Nat) : Found → Found
  | .token t => .token (t.down k)
  | .fault line f => .fault (line + k) f

/-- The same item further on in a longer source. -/
def Item.later (o k : Nat) (i : Item) : Item := ⟨i.start + o, i.stop + o, i.found.down k⟩

/-- What has gone before only counts for where the items stand. -/
theorem Cursor.itemsAfter_later {c : Cursor} (he : c.ended = false) (o k : Nat) :
    (c.later o k).itemsAfter [] = (c.itemsAfter []).map (Item.later o k) := by
  induction hn : c.rest.length using Nat.strongRecOn generalizing c with
  | ind n ih =>
    subst hn
    have he' : (c.later o k).ended = false := he
    cases hr : c.rest with
    | nil =>
      rw [itemsAfter_end hr he, itemsAfter_end (c := c.later o k) hr he']
      rfl
    | cons b bytes =>
      have hpast : (c.later o k).past (cut b bytes) = (c.past (cut b bytes)).later o k := by
        simp only [past, later, Nat.add_right_comm]
      have hitem : (c.later o k).item? (cut b bytes) =
          (c.item? (cut b bytes)).map (Item.later o k) := by
        unfold item?
        rw [hpast]
        split <;> rfl
      have hlt : (c.past (cut b bytes)).rest.length < c.rest.length := by
        rw [hr]
        exact rest_length_lt b bytes
      have hrest := ih _ hlt (c := c.past (cut b bytes)) he rfl
      rw [itemsAfter_cut hr he, itemsAfter_cut (c := c.later o k) hr he', hpast, hitem, hrest,
        List.map_append, Option.toList_map]

/-! ## Tokens -/

theorem tokensOf_append (is js : List Item) : tokensOf (is ++ js) = tokensOf is ++ tokensOf js :=
  List.filterMap_append ..

theorem faultsOf_append (is js : List Item) : faultsOf (is ++ js) = faultsOf is ++ faultsOf js :=
  List.filterMap_append ..

theorem tokensOf_later (o k : Nat) (is : List Item) :
    tokensOf (is.map (Item.later o k)) = (tokensOf is).map (Token.down k) := by
  induction is with
  | nil => rfl
  | cons i rest ih =>
    obtain ⟨start, stop, found⟩ := i
    cases found with
    | token t => exact congrArg (t.down k :: ·) ih
    | fault line f => exact ih

theorem faultsOf_later {is : List Item} (h : faultsOf is = []) (o k : Nat) :
    faultsOf (is.map (Item.later o k)) = [] := by
  induction is with
  | nil => rfl
  | cons i rest ih =>
    obtain ⟨start, stop, found⟩ := i
    cases found with
    | token t => exact ih h
    | fault line f => cases h

theorem not_fault_of_faultsOf {is : List Item} (h : faultsOf is = []) :
    ∀ i ∈ is, ∀ l f, i.found ≠ .fault l f := by
  intro i hi l f hf
  have := List.filterMap_eq_nil_iff.1 h i hi
  rw [hf] at this
  cases this

/-- The end of a source comes last among its tokens, and only there. -/
theorem scan_end (source : List UInt8) : ∃ body, (∀ t ∈ body, t.isEof = false) ∧
    (scan source).1 = body ++ [.eof (1 + source.count lineFeed)] := by
  have hstart : (Cursor.ofBytes source).offset = ([] : List UInt8).length := rfl
  obtain ⟨found, hlaid, hitems⟩ := Cursor.laid rfl hstart rfl
  refine ⟨tokensOf found, fun t ht => ?_, ?_⟩
  · obtain ⟨i, hi, hf⟩ := List.mem_filterMap.1 ht
    obtain ⟨w, after, -, hfits⟩ := hlaid.fits i hi
    cases hi : i.found with
    | fault line f =>
      rw [hi] at hf
      cases hf
    | token u =>
      rw [hi] at hf hfits
      cases hf
      have hkind := hfits.1.lexeme.ne_eof
      unfold Token.isEof
      split
      next he => exact absurd he hkind
      next => rfl
  · show tokensOf ((Cursor.ofBytes source).itemsAfter []) = _
    rw [hitems, tokensOf_append]
    rfl

/-- Two sources with a line feed between them have the tokens that they have alone, those of the
second one on later lines. -/
theorem scan_join {first second : List UInt8} (h : (scan first).2 = [])
    (h' : (scan second).2 = []) :
    ∃ body, (scan first).1 = body ++ [.eof (1 + first.count lineFeed)] ∧
      (scan (first ++ lineFeed :: second)).1 =
        body ++ (scan second).1.map (Token.down (first.count lineFeed + 1)) ∧
      (scan (first ++ lineFeed :: second)).2 = [] := by
  obtain ⟨found, hfirst, hjoined⟩ := Cursor.itemsAfter_before second (c := .ofBytes first) rfl
    fun i hi l => not_fault_of_faultsOf h i hi l _
  have hlater := Cursor.itemsAfter_later (c := .ofBytes second) rfl (first.length + 1)
    (first.count lineFeed + 1)
  have hstart : (⟨second, (Cursor.ofBytes first).offset + (Cursor.ofBytes first).rest.length + 1,
      (Cursor.ofBytes first).line + (Cursor.ofBytes first).rest.count lineFeed + 1, false⟩ :
        Cursor) = (Cursor.ofBytes second).later (first.length + 1) (first.count lineFeed + 1) := by
    simp only [Cursor.ofBytes, Cursor.later, Nat.zero_add, Nat.add_assoc]
  have hitems : items (first ++ lineFeed :: second) =
      found ++ (items second).map (Item.later (first.length + 1) (first.count lineFeed + 1)) := by
    rw [hstart, hlater] at hjoined
    exact hjoined
  have hquiet : faultsOf found = [] := by
    have : faultsOf (items first) = [] := h
    rw [items, hfirst, faultsOf_append] at this
    exact (List.append_eq_nil_iff.1 this).1
  refine ⟨tokensOf found, ?_, ?_, ?_⟩
  · show tokensOf (items first) = _
    rw [items, hfirst, tokensOf_append]
    rfl
  · simp only [scan, hitems, tokensOf_append, tokensOf_later]
  · simp only [scan, hitems, faultsOf_append, hquiet, faultsOf_later h', List.append_nil]

end Source

end Lox
