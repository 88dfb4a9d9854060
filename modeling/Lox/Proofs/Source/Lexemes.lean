/-
The lexemes of the language, said without a cursor (`Lexeme`), and what a cut
takes off the front of a source (`cut_fits`): the longest lexeme there
(`Longest`), or else a blank, a string without an end, or a byte that starts
no lexeme.
-/
import Lox.Source.Lexeme
import Mathlib.Data.List.TakeWhile

namespace Lox

/-! ## Bytes -/

/-- What holds of all numbers below 256 holds of all bytes. -/
theorem forall_byte {P : UInt8 → Prop} (h : ∀ n < 256, P (UInt8.ofNat n)) (b : UInt8) : P b := by
  have hb := h b.toNat b.toNat_lt
  rwa [UInt8.ofNat_toNat] at hb

/-- The characters of bytes, one each. -/
def charsOf (bytes : List UInt8) : List Char := bytes.map fun b => Char.ofNat b.toNat

namespace Utf8

/-- A byte below 128 is a character by itself. -/
theorem next_of_ascii {b : UInt8} (hb : b < 0x80) (rest : List UInt8) :
    next b rest = (.char (Char.ofNat b.toNat), rest) := by
  simp only [next, lead?, if_pos hb, tails]

theorem pieces_of_ascii {bytes : List UInt8} (h : ∀ b ∈ bytes, b < 0x80) :
    pieces bytes = (charsOf bytes).map .char := by
  induction bytes with
  | nil => exact pieces_nil
  | cons b rest ih =>
    obtain ⟨hb, hrest⟩ := List.forall_mem_cons.1 h
    rw [pieces_cons, next_of_ascii hb, ih hrest]
    rfl

/-- The text of bytes below 128 has their characters. -/
theorem toList_lenient {bytes : List UInt8} (h : ∀ b ∈ bytes, b < 0x80) :
    (lenient bytes).toList = charsOf bytes := by
  rw [lenient, pieces_of_ascii h, String.toList_ofList, List.map_map]
  exact List.map_id _

end Utf8

namespace Source

theorem ascii_of_isWord : ∀ b, isWord b = true → b < 0x80 := forall_byte (by decide +kernel)

theorem ascii_of_isDigit {b : UInt8} (h : isDigit b = true) : b < 0x80 :=
  ascii_of_isWord b (by rw [isWord, h, Bool.or_true])

theorem isDigit_char : ∀ b, (Char.ofNat b.toNat).isDigit = isDigit b := forall_byte (by decide +kernel)

theorem toNat_char : ∀ b : UInt8, (Char.ofNat b.toNat).toNat = b.toNat :=
  forall_byte (by decide +kernel)

/-- Bytes with the same characters are the same. -/
theorem charsOf_injective {v w : List UInt8} (h : charsOf v = charsOf w) : v = w := by
  refine (List.map_inj_right fun a b hab => ?_).1 h
  have := congrArg Char.toNat hab
  rw [toNat_char, toNat_char] at this
  exact UInt8.toNat_inj.1 this

/-- The classes of first bytes exclude each other. -/
theorem first_of_isDigit : ∀ b, isDigit b = true →
    isLetter b = false ∧ b ≠ quote ∧ mark? b = none ∧ equalMarks? b = none :=
  forall_byte (by decide +kernel)

theorem first_of_isLetter : ∀ b, isLetter b = true →
    b ≠ quote ∧ mark? b = none ∧ equalMarks? b = none :=
  forall_byte (by decide +kernel)

theorem first_quote : mark? quote = none ∧ equalMarks? quote = none := by decide

theorem first_of_equalMarks? : ∀ b, (equalMarks? b).isSome = true → mark? b = none :=
  forall_byte (by decide +kernel)

/-! ## Lexemes -/

/-- The bytes of a mark or a keyword. -/
def spelling (s : Symbol) : List UInt8 := Utf8.encode s.text

/-- At least one digit, and nothing else. -/
def Digits (w : List UInt8) : Prop := w ≠ [] ∧ ∀ d ∈ w, isDigit d = true

/-- The point in a number. -/
def point : UInt8 := 0x2E

/-- The number that is written with these digits, the last `places` of them behind the point. -/
def numberOf (digits : List UInt8) (places : Nat) : Float :=
  Decimal.nearest (Decimal.natOfDigits (charsOf digits)) (0 - places)

/-- The lexemes, each with the kind of token that it is. -/
inductive Lexeme : TokenKind → List UInt8 → Prop
  | mark {s : Symbol} : s ∈ Symbol.marks → Lexeme (.symbol s) (spelling s)
  | keyword {k : Symbol} : k ∈ Symbol.keywords → Lexeme (.symbol k) (spelling k)
  /-- A letter and letters and digits behind it, which are not a keyword as a whole. -/
  | name {b : UInt8} {word : List UInt8} : isLetter b = true → (∀ c ∈ word, isWord c = true) →
    (∀ k ∈ Symbol.keywords, spelling k ≠ b :: word) → Lexeme .identifier (b :: word)
  | whole {digits : List UInt8} : Digits digits → Lexeme (.number (numberOf digits 0)) digits
  | fraction {whole fraction : List UInt8} : Digits whole → Digits fraction →
    Lexeme (.number (numberOf (whole ++ fraction) fraction.length)) (whole ++ point :: fraction)
  | string {body : List UInt8} : quote ∉ body →
    Lexeme (.string (Utf8.lenient body)) (quote :: body ++ [quote])

theorem spelling_mark : ∀ s ∈ Symbol.marks,
    (spelling s).tail = [] ∧ (((spelling s).head?.bind mark?).isSome = true ∨
      ((spelling s).head?.bind equalMarks?).isSome = true) ∨
    (spelling s).tail = [0x3D] ∧ ((spelling s).head?.bind equalMarks?).isSome = true := by
  decide +kernel

theorem spelling_keyword : ∀ k ∈ Symbol.keywords,
    (spelling k).all isLetter = true ∧ charsOf (spelling k) = k.text.toList := by
  decide +kernel

theorem spelling_ne_nil : ∀ s ∈ Symbol.marks ++ Symbol.keywords, spelling s ≠ [] := by
  decide +kernel

/-- What can stand behind the first byte of a lexeme. -/
inductive Begins (b : UInt8) (w : List UInt8) : Prop
  | mark : (mark? b).isSome = true → w = [] → Begins b w
  | equalMark : (equalMarks? b).isSome = true → w = [] ∨ w = [0x3D] → Begins b w
  | word : isLetter b = true → (∀ c ∈ w, isWord c = true) → Begins b w
  | whole : isDigit b = true → (∀ d ∈ w, isDigit d = true) → Begins b w
  | fraction {u f : List UInt8} : isDigit b = true → (∀ d ∈ u, isDigit d = true) → Digits f →
    w = u ++ point :: f → Begins b w
  | string {body : List UInt8} : b = quote → quote ∉ body → w = body ++ [quote] → Begins b w

theorem Lexeme.ne_nil {kind : TokenKind} {w : List UInt8} (h : Lexeme kind w) : w ≠ [] := by
  cases h with
  | mark hs => exact spelling_ne_nil _ (List.mem_append_left _ hs)
  | keyword hk => exact spelling_ne_nil _ (List.mem_append_right _ hk)
  | name => exact List.cons_ne_nil _ _
  | whole hd => exact hd.1
  | fraction hd => exact List.append_ne_nil_of_left_ne_nil hd.1 _
  | string => exact List.cons_ne_nil _ _

theorem Lexeme.begins {kind : TokenKind} {b : UInt8} {w : List UInt8} (h : Lexeme kind (b :: w)) :
    Begins b w := by
  generalize hu : b :: w = u at h
  cases h with
  | mark hs =>
    have hs := spelling_mark _ hs
    rw [← hu] at hs
    rcases hs with ⟨hw, hb | hb⟩ | ⟨hw, hb⟩
    · exact .mark hb hw
    · exact .equalMark hb (.inl hw)
    · exact .equalMark hb (.inr hw)
  | keyword hk =>
    have hk := (spelling_keyword _ hk).1
    rw [← hu, List.all_cons, Bool.and_eq_true, List.all_eq_true] at hk
    exact .word hk.1 fun c hc => by rw [isWord, hk.2 c hc, Bool.true_or]
  | name hb hword _ => cases hu; exact .word hb hword
  | whole hd =>
    subst hu
    obtain ⟨hb, hw⟩ := List.forall_mem_cons.1 hd.2
    exact .whole hb hw
  | @fraction whole f hd hf =>
    cases whole with
    | nil => exact absurd rfl hd.1
    | cons d whole =>
      cases hu
      obtain ⟨hb, hw⟩ := List.forall_mem_cons.1 hd.2
      exact .fraction hb hw hf rfl
  | string hq => cases hu; exact .string rfl hq rfl

/-! ## Words and numbers -/

/-- A word is taken for a keyword just if it is one as a whole. -/
theorem keyword?_eq_some {word : List UInt8} (hw : ∀ c ∈ word, isWord c = true) {k : Symbol} :
    Symbol.keyword? (Utf8.lenient word) = some k → k ∈ Symbol.keywords ∧ spelling k = word := by
  intro h
  have hk := List.mem_of_find?_eq_some h
  refine ⟨hk, charsOf_injective ?_⟩
  rw [(spelling_keyword k hk).2, Symbol.keyword?_text h,
    Utf8.toList_lenient fun c hc => ascii_of_isWord c (hw c hc)]

theorem keyword?_eq_none {word : List UInt8} (hw : ∀ c ∈ word, isWord c = true)
    (h : Symbol.keyword? (Utf8.lenient word) = none) : ∀ k ∈ Symbol.keywords, spelling k ≠ word := by
  rintro k hk rfl
  have hne : ¬ (k.text == Utf8.lenient (spelling k)) = true := List.find?_eq_none.1 h k hk
  refine hne (beq_iff_eq.2 (String.toList_inj.1 ?_))
  rw [Utf8.toList_lenient fun c hc => ascii_of_isWord c (hw c hc), (spelling_keyword k hk).2]

theorem takeWhile_charsOf (bytes : List UInt8) :
    (charsOf bytes).takeWhile Char.isDigit = charsOf (bytes.takeWhile isDigit) := by
  rw [charsOf, List.takeWhile_map, Function.comp_def]
  simp only [isDigit_char]
  rfl

theorem dropWhile_charsOf (bytes : List UInt8) :
    (charsOf bytes).dropWhile Char.isDigit = charsOf (bytes.dropWhile isDigit) := by
  rw [charsOf, List.dropWhile_map, Function.comp_def]
  simp only [isDigit_char]
  rfl

theorem char_of_isDigit : ∀ b, isDigit b = true → Char.ofNat b.toNat ≠ '-' ∧
    Char.ofNat b.toNat ≠ '+' ∧ (Char.ofNat b.toNat).toLower ≠ 'i' ∧
    (Char.ofNat b.toNat).toLower ≠ 'n' :=
  forall_byte (by decide +kernel)

/-- What begins with a digit is none of the numbers that have names. -/
theorem named?_of_digit {b : UInt8} (hb : isDigit b = true) (bytes : List UInt8) :
    Decimal.named? (charsOf (b :: bytes)) = none := by
  have head : ∀ {name : String}, String.ofList ((charsOf (b :: bytes)).map Char.toLower) = name →
      name.toList.head? = some (Char.ofNat b.toNat).toLower := by
    rintro name rfl
    rw [String.toList_ofList]
    rfl
  obtain ⟨-, -, hi, hn⟩ := char_of_isDigit b hb
  unfold Decimal.named?
  split
  next h => exact absurd (Option.some.inj (head h)).symm hi
  next h => exact absurd (Option.some.inj (head h)).symm hi
  next h => exact absurd (Option.some.inj (head h)).symm hn
  next => rfl

/-- What begins with a digit is read without a sign. -/
theorem read?_of_digit {b : UInt8} (hb : isDigit b = true) {bytes : List UInt8} {text : String}
    (ht : text.toList = charsOf (b :: bytes)) :
    Decimal.read? text = Decimal.unsigned? (charsOf (b :: bytes)) := by
  obtain ⟨hminus, hplus, -, -⟩ := char_of_isDigit b hb
  unfold Decimal.read?
  rw [ht]
  split
  next negative rest h =>
    split at h
    next hc => exact absurd (List.cons.inj hc).1 hminus
    next hc => exact absurd (List.cons.inj hc).1 hplus
    next =>
      cases h
      rw [named?_of_digit hb]
      simp

/-- Digits alone are a whole number. -/
theorem read?_whole {digits : List UInt8} (h : Digits digits) :
    Decimal.read? (Utf8.lenient digits) = some (numberOf digits 0) := by
  obtain ⟨hne, hd⟩ := h
  have hall : digits.takeWhile isDigit = digits := List.takeWhile_eq_self_iff.2 hd
  have hnone : digits.dropWhile isDigit = [] := List.dropWhile_eq_nil_iff.2 hd
  obtain ⟨b, bytes, rfl⟩ := List.exists_cons_of_ne_nil hne
  rw [read?_of_digit (hd b (List.mem_cons_self ..)) (Utf8.toList_lenient fun c hc =>
    ascii_of_isDigit (hd c hc))]
  unfold Decimal.unsigned?
  rw [takeWhile_charsOf, dropWhile_charsOf, hall, hnone]
  simp [charsOf, Decimal.exponent?, numberOf]

theorem isDigit_point : isDigit point = false := by decide

/-- What digits before a point and the rest behind it look like to a cut. -/
theorem split_at_point {whole : List UInt8} (h : ∀ d ∈ whole, isDigit d = true)
    (after : List UInt8) :
    (whole ++ point :: after).takeWhile isDigit = whole ∧
      (whole ++ point :: after).dropWhile isDigit = point :: after := by
  rw [List.takeWhile_append_of_pos h, List.dropWhile_append_of_pos h,
    List.takeWhile_cons_of_neg (by simp [isDigit_point]),
    List.dropWhile_cons_of_neg (by simp [isDigit_point]), List.append_nil]
  exact ⟨rfl, rfl⟩

/-- Digits and a fraction are a number. -/
theorem read?_fraction {whole fraction : List UInt8} (hw : Digits whole) (hf : Digits fraction) :
    Decimal.read? (Utf8.lenient (whole ++ point :: fraction)) =
      some (numberOf (whole ++ fraction) fraction.length) := by
  obtain ⟨hne, hd⟩ := hw
  have hascii : ∀ c ∈ whole ++ point :: fraction, c < 0x80 := by
    intro c hc
    rcases List.mem_append.1 hc with hc | hc
    · exact ascii_of_isDigit (hd c hc)
    rcases List.mem_cons.1 hc with rfl | hc
    · decide
    · exact ascii_of_isDigit (hf.2 c hc)
  obtain ⟨htake, hdrop⟩ := split_at_point hd fraction
  have hall : fraction.takeWhile isDigit = fraction := List.takeWhile_eq_self_iff.2 hf.2
  have hnone : fraction.dropWhile isDigit = [] := List.dropWhile_eq_nil_iff.2 hf.2
  obtain ⟨b, bytes, rfl⟩ := List.exists_cons_of_ne_nil hne
  have hread : Decimal.read? (Utf8.lenient (b :: bytes ++ point :: fraction)) =
      Decimal.unsigned? (charsOf (b :: bytes ++ point :: fraction)) :=
    read?_of_digit (hd b (List.mem_cons_self ..)) (Utf8.toList_lenient hascii)
  have hpoint : charsOf (point :: fraction) = '.' :: charsOf fraction := rfl
  rw [hread]
  simp only [Decimal.unsigned?, takeWhile_charsOf, dropWhile_charsOf, htake, hdrop, hpoint, hall,
    hnone]
  simp [charsOf, Decimal.exponent?, numberOf]

variable {b : UInt8} {rest : List UInt8} {kind : TokenKind}

/-- The number at the front of a source: digits alone, -/
theorem cutNumber_whole
    (h : ∀ d after, rest.dropWhile isDigit = point :: d :: after → isDigit d = false) :
    cutNumber b rest =
      ⟨.token (.number ((Decimal.read? (Utf8.lenient (b :: rest.takeWhile isDigit))).getD 0)),
        b :: rest.takeWhile isDigit, rest.dropWhile isDigit⟩ := by
  unfold cutNumber
  split
  next d after hd => rw [h d after hd, hd]; rfl
  next => rfl

/-- or with a fraction. -/
theorem cutNumber_fraction {d : UInt8} {after : List UInt8}
    (h : rest.dropWhile isDigit = point :: d :: after) (hd : isDigit d = true) :
    cutNumber b rest =
      let taken := b :: rest.takeWhile isDigit ++ point :: d :: after.takeWhile isDigit
      ⟨.token (.number ((Decimal.read? (Utf8.lenient taken)).getD 0)), taken,
        after.dropWhile isDigit⟩ := by
  have h' : rest.dropWhile isDigit = 0x2E :: d :: after := h
  simp only [cutNumber, h', hd, if_true]
  rfl

/-! ## A lexeme by itself -/

theorem cut_of_isDigit {b : UInt8} (hb : isDigit b = true) (rest : List UInt8) :
    cut b rest = cutNumber b rest := by
  have : ∀ b, isDigit b = true → isSpace b = false ∧ b ≠ 0x2F ∧ b ≠ quote :=
    forall_byte (by decide +kernel)
  obtain ⟨hspace, hslash, hquote⟩ := this b hb
  simp [cut, hspace, hslash, hquote, hb]

theorem cut_of_isLetter {b : UInt8} (hb : isLetter b = true) (rest : List UInt8) :
    cut b rest = cutWord b rest := by
  have : ∀ b, isLetter b = true → isSpace b = false ∧ b ≠ 0x2F ∧ b ≠ quote ∧ isDigit b = false :=
    forall_byte (by decide +kernel)
  obtain ⟨hspace, hslash, hquote, hdigit⟩ := this b hb
  simp [cut, hspace, hslash, hquote, hdigit, hb]

theorem cut_spelling : ∀ s ∈ Symbol.marks ++ Symbol.keywords,
    (spelling s).head?.map (fun b => cut b (spelling s).tail) =
      some ⟨.token (.symbol s), spelling s, []⟩ := by
  intro s _
  cases s <;> with_unfolding_all rfl

/-- A lexeme that is a whole source is cut as one token of its kind. -/
theorem Lexeme.cut {kind : TokenKind} {b : UInt8} {w : List UInt8} (h : Lexeme kind (b :: w)) :
    cut b w = ⟨.token kind, b :: w, []⟩ := by
  have spelled : ∀ s ∈ Symbol.marks ++ Symbol.keywords, b :: w = spelling s →
      Source.cut b w = ⟨.token (.symbol s), b :: w, []⟩ := by
    intro s hs hw
    have := cut_spelling s hs
    rw [← hw] at this
    exact Option.some.inj this
  generalize hu : b :: w = u at h
  cases h with
  | mark hs => exact hu ▸ spelled _ (List.mem_append_left _ hs) hu
  | keyword hk => exact hu ▸ spelled _ (List.mem_append_right _ hk) hu
  | name hb hword hnot =>
    cases hu
    have hall : ∀ c ∈ b :: w, isWord c = true :=
      List.forall_mem_cons.2 ⟨by rw [isWord, hb, Bool.true_or], hword⟩
    have hnone : Symbol.keyword? (Utf8.lenient (b :: w)) = none :=
      Option.eq_none_iff_forall_not_mem.2 fun k hk =>
        have ⟨hmem, hspell⟩ := keyword?_eq_some hall hk
        hnot k hmem hspell
    rw [cut_of_isLetter hb, cutWord, List.takeWhile_eq_self_iff.2 hword,
      List.dropWhile_eq_nil_iff.2 hword, hnone]
  | whole hd =>
    subst hu
    obtain ⟨hb, hw⟩ := List.forall_mem_cons.1 hd.2
    have hdrop : w.dropWhile isDigit = [] := List.dropWhile_eq_nil_iff.2 hw
    rw [cut_of_isDigit hb, cutNumber_whole (by rw [hdrop]; intro _ _ h; cases h), hdrop,
      List.takeWhile_eq_self_iff.2 hw, read?_whole hd]
    rfl
  | @fraction whole f hd hf =>
    cases whole with
    | nil => exact absurd rfl hd.1
    | cons d whole =>
      rw [List.cons_append] at hu
      obtain ⟨rfl, rfl⟩ := List.cons.inj hu
      obtain ⟨hb, hw⟩ := List.forall_mem_cons.1 hd.2
      obtain ⟨c, f, rfl⟩ := List.exists_cons_of_ne_nil hf.1
      obtain ⟨hc, hf'⟩ := List.forall_mem_cons.1 hf.2
      obtain ⟨htake, hdrop⟩ := split_at_point hw (c :: f)
      rw [cut_of_isDigit hb, cutNumber_fraction hdrop hc, htake, List.takeWhile_eq_self_iff.2 hf',
        List.dropWhile_eq_nil_iff.2 hf']
      dsimp only
      rw [read?_fraction hd hf]
      rfl
  | @string body hq =>
    rw [List.cons_append] at hu
    obtain ⟨rfl, rfl⟩ := List.cons.inj hu
    have hbody : ∀ c ∈ body, (c != quote) = true := fun c hc => by
      simpa using fun he : c = quote => hq (he ▸ hc)
    have hcut : Source.cut quote (body ++ [quote]) = cutString (body ++ [quote]) := rfl
    rw [hcut, cutString, List.takeWhile_append_of_pos hbody, List.dropWhile_append_of_pos hbody]
    simp

/-- A lexeme has one kind. -/
theorem Lexeme.unique {kind kind' : TokenKind} {w : List UInt8} (h : Lexeme kind w)
    (h' : Lexeme kind' w) : kind = kind' := by
  cases w with
  | nil => exact absurd rfl h.ne_nil
  | cons b w => exact Piece.token.inj (congrArg Cut.piece (h.cut.symm.trans h'.cut))

/-! ## What a cut takes -/

/-- The two marks that open a comment. -/
def commentMark : List UInt8 := [0x2F, 0x2F]

/-- The token at the front of a source is the longest lexeme there. -/
structure Longest (kind : TokenKind) (w source : List UInt8) : Prop where
  lexeme : Lexeme kind w
  kind_unique : ∀ kind', Lexeme kind' w → kind' = kind
  longest : ∀ kind' w', Lexeme kind' w' → w' <+: source → w'.length ≤ w.length
  noComment : ¬ commentMark <+: source

theorem commentMark_cons {b : UInt8} {rest : List UInt8} (h : commentMark <+: b :: rest) :
    b = 0x2F ∧ rest.head? = some 0x2F := by
  obtain ⟨tail, h⟩ := h
  cases h
  exact ⟨rfl, rfl⟩

/-- If no lexeme at the front of a source is longer, the one that was found is the longest. -/
theorem Longest.intro {kind : TokenKind} {b : UInt8} {w rest : List UInt8} (h : Lexeme kind w)
    (hc : ¬ (b = 0x2F ∧ rest.head? = some 0x2F))
    (hl : ∀ v tail, Begins b v → rest = v ++ tail → v.length < w.length) :
    Longest kind w (b :: rest) := by
  refine ⟨h, fun _ h' => h'.unique h, fun kind' w' hw' hpre => ?_,
    fun hm => hc (commentMark_cons hm)⟩
  obtain ⟨tail, htail⟩ := hpre
  cases w' with
  | nil => exact Nat.zero_le _
  | cons b' v =>
    obtain ⟨rfl, hrest⟩ := List.cons.inj htail
    exact hl v tail hw'.begins hrest.symm

theorem length_le_takeWhile {p : UInt8 → Bool} {w : List UInt8} (h : ∀ c ∈ w, p c = true)
    (tail : List UInt8) : w.length ≤ ((w ++ tail).takeWhile p).length := by
  rw [List.takeWhile_append_of_pos h, List.length_append]
  exact Nat.le_add_right ..

theorem longest_cutWord (hb : isLetter b = true) (h : (cutWord b rest).piece = .token kind) :
    Longest kind (cutWord b rest).taken (b :: rest) := by
  have hword : ∀ c ∈ rest.takeWhile isWord, isWord c = true := fun _ => List.mem_takeWhile_imp
  have hall : ∀ c ∈ b :: rest.takeWhile isWord, isWord c = true :=
    List.forall_mem_cons.2 ⟨by rw [isWord, hb, Bool.true_or], hword⟩
  obtain ⟨hquote, hmark, hequal⟩ := first_of_isLetter b hb
  refine .intro ?_ ?_ fun v tail hv hrest => ?_
  · cases h
    cases hk : Symbol.keyword? (Utf8.lenient (b :: rest.takeWhile isWord)) with
    | some k =>
      obtain ⟨hmem, hspell⟩ := keyword?_eq_some hall hk
      have := Lexeme.keyword hmem
      rwa [hspell] at this
    | none => exact .name hb hword (keyword?_eq_none hall hk)
  · rintro ⟨rfl, -⟩
    exact absurd hb (by decide)
  · subst hrest
    have hlt : v.length ≤ ((v ++ tail).takeWhile isWord).length := by
      cases hv with
      | word _ hw => exact length_le_takeWhile hw tail
      | mark hm => rw [hmark] at hm; cases hm
      | equalMark hm => rw [hequal] at hm; cases hm
      | whole hd | fraction hd =>
        have := (first_of_isDigit b hd).1
        rw [hb] at this
        cases this
      | string hq => exact absurd hq hquote
    exact Nat.lt_succ_of_le hlt

theorem longest_cutString (h : (cutString rest).piece = .token kind) :
    Longest kind (cutString rest).taken (quote :: rest) := by
  have hsplit := List.takeWhile_append_dropWhile (p := (· != quote)) (l := rest)
  have hbody : quote ∉ rest.takeWhile (· != quote) := fun hq => by
    simpa using List.mem_takeWhile_imp hq
  unfold cutString at h ⊢
  cases hd : rest.dropWhile (· != quote) with
  | nil => simp only [hd] at h; cases h
  | cons close after =>
    simp only [hd] at h ⊢
    cases h
    have hclose : close = quote := by
      have := List.head?_dropWhile_not (· != quote) rest
      simpa [hd] using this
    subst hclose
    refine .intro (.string hbody) (fun h => absurd h.1 (by decide)) fun v tail hv hrest => ?_
    cases hv with
    | @string body _ hq hw =>
      have : rest.takeWhile (· != quote) = body := by
        rw [hrest, hw, List.append_assoc, List.takeWhile_append_of_pos]
        · simp
        · intro c hc
          simpa using fun he : c = quote => hq (he ▸ hc)
      rw [this, hw]
      simp
    | mark hm => rw [first_quote.1] at hm; cases hm
    | equalMark hm => rw [first_quote.2] at hm; cases hm
    | word hl => exact absurd hl (by decide)
    | whole hd | fraction hd => exact absurd hd (by decide)

theorem Begins.of_isDigit {v : List UInt8} (hb : isDigit b = true) (h : Begins b v) :
    (∀ d ∈ v, isDigit d = true) ∨
      ∃ u f, (∀ d ∈ u, isDigit d = true) ∧ Digits f ∧ v = u ++ point :: f := by
  obtain ⟨hletter, hquote, hmark, hequal⟩ := first_of_isDigit b hb
  cases h with
  | whole _ hv => exact .inl hv
  | fraction _ hu hf hv => exact .inr ⟨_, _, hu, hf, hv⟩
  | mark hm => rw [hmark] at hm; cases hm
  | equalMark hm => rw [hequal] at hm; cases hm
  | word hl => rw [hletter] at hl; cases hl
  | string hq => exact absurd hq hquote

theorem longest_cutNumber (hb : isDigit b = true) (h : (cutNumber b rest).piece = .token kind) :
    Longest kind (cutNumber b rest).taken (b :: rest) := by
  have hslash : ¬ (b = 0x2F ∧ rest.head? = some 0x2F) := by
    rintro ⟨rfl, -⟩
    exact absurd hb (by decide)
  have hwhole : Digits (b :: rest.takeWhile isDigit) :=
    ⟨List.cons_ne_nil _ _, List.forall_mem_cons.2 ⟨hb, fun _ => List.mem_takeWhile_imp⟩⟩
  -- what a fraction behind the digits leaves for the rest of the source
  have hbehind : ∀ {u f tail : List UInt8}, (∀ d ∈ u, isDigit d = true) →
      rest = u ++ point :: f ++ tail →
      rest.takeWhile isDigit = u ∧ rest.dropWhile isDigit = point :: (f ++ tail) := by
    rintro u f tail hu rfl
    rw [List.append_assoc]
    exact split_at_point hu (f ++ tail)
  by_cases hfrac : ∃ d after, rest.dropWhile isDigit = point :: d :: after ∧ isDigit d = true
  · obtain ⟨d, after, hdrop, hd⟩ := hfrac
    have hf : Digits (d :: after.takeWhile isDigit) :=
      ⟨List.cons_ne_nil _ _, List.forall_mem_cons.2 ⟨hd, fun _ => List.mem_takeWhile_imp⟩⟩
    rw [cutNumber_fraction hdrop hd] at h ⊢
    dsimp only at h ⊢
    rw [read?_fraction hwhole hf] at h
    cases h
    refine .intro (.fraction hwhole hf) hslash fun v tail hv hrest => ?_
    rcases hv.of_isDigit hb with hv | ⟨u, f, hu, hf', rfl⟩
    · have := length_le_takeWhile hv tail
      rw [← hrest] at this
      simp only [List.length_append, List.length_cons]
      omega
    · obtain ⟨htake, hdrop'⟩ := hbehind hu hrest
      have hsplit : f ++ tail = d :: after := List.tail_eq_of_cons_eq (hdrop'.symm.trans hdrop)
      have := length_le_takeWhile hf'.2 tail
      rw [hsplit, List.takeWhile_cons_of_pos hd] at this
      simp only [htake, List.length_append, List.length_cons] at this ⊢
      omega
  · have hnone : ∀ d after, rest.dropWhile isDigit = point :: d :: after → isDigit d = false :=
      fun d after hdrop => Bool.eq_false_iff.2 fun hd => hfrac ⟨d, after, hdrop, hd⟩
    rw [cutNumber_whole hnone] at h ⊢
    dsimp only at h ⊢
    rw [read?_whole hwhole] at h
    cases h
    refine .intro (.whole hwhole) hslash fun v tail hv hrest => ?_
    rcases hv.of_isDigit hb with hv | ⟨u, f, hu, hf', rfl⟩
    · have := length_le_takeWhile hv tail
      rw [← hrest] at this
      exact Nat.lt_succ_of_le this
    · obtain ⟨-, hdrop'⟩ := hbehind hu hrest
      obtain ⟨d, f, rfl⟩ := List.exists_cons_of_ne_nil hf'.1
      exact absurd (hf'.2 d (List.mem_cons_self ..)) (by simp [hnone d _ hdrop'])

/-- The marks that a byte may be, and how they are spelled. -/
theorem spelling_mark? : ∀ b, (mark? b).all (fun s => s ∈ Symbol.marks ∧ spelling s = [b]) = true :=
  forall_byte (by decide +kernel)

theorem spelling_equalMarks? : ∀ b, (equalMarks? b).all (fun p =>
    (p.1 ∈ Symbol.marks ∧ spelling p.1 = [b]) ∧ p.2 ∈ Symbol.marks ∧ spelling p.2 = [b, 0x3D]) =
      true :=
  forall_byte (by decide +kernel)

theorem Begins.of_equalMark {v : List UInt8} {p : Symbol × Symbol} (hb : equalMarks? b = some p)
    (h : Begins b v) : v = [] ∨ v = [0x3D] := by
  cases h with
  | equalMark _ hv => exact hv
  | mark hm => rw [first_of_equalMarks? b (by rw [hb]; rfl)] at hm; cases hm
  | word hl => rw [(first_of_isLetter b hl).2.2] at hb; cases hb
  | whole hd | fraction hd => rw [(first_of_isDigit b hd).2.2.2] at hb; cases hb
  | string hq => rw [hq, first_quote.2] at hb; cases hb

theorem Begins.of_mark {v : List UInt8} {s : Symbol} (hb : mark? b = some s) (h : Begins b v) :
    v = [] := by
  cases h with
  | mark _ hv => exact hv
  | equalMark he => rw [first_of_equalMarks? b he] at hb; cases hb
  | word hl => rw [(first_of_isLetter b hl).2.1] at hb; cases hb
  | whole hd | fraction hd => rw [(first_of_isDigit b hd).2.2.1] at hb; cases hb
  | string hq => rw [hq, first_quote.1] at hb; cases hb

theorem longest_equalMark {short long : Symbol} (hb : equalMarks? b = some (short, long))
    (rest : List UInt8) : (rest.head? ≠ some 0x3D → Longest (.symbol short) [b] (b :: rest)) ∧
      ∀ after, rest = 0x3D :: after → Longest (.symbol long) [b, 0x3D] (b :: rest) := by
  have hspell := spelling_equalMarks? b
  rw [hb] at hspell
  simp only [Option.all_some, decide_eq_true_eq] at hspell
  obtain ⟨⟨hshort, hshort'⟩, hlong, hlong'⟩ := hspell
  have hslash : ¬ (b = 0x2F ∧ rest.head? = some 0x2F) := by
    rintro ⟨rfl, -⟩
    cases hb
  constructor
  · intro hne
    refine .intro (hshort' ▸ .mark hshort) hslash fun v tail hv hrest => ?_
    rcases hv.of_equalMark hb with rfl | rfl
    · exact Nat.zero_lt_one
    · exact absurd (congrArg List.head? hrest) hne
  · rintro after -
    refine .intro (hlong' ▸ .mark hlong) hslash fun v tail hv _ => ?_
    rcases hv.of_equalMark hb with rfl | rfl
    · exact Nat.zero_lt_two
    · exact Nat.one_lt_two

theorem longest_mark {s : Symbol} (hb : mark? b = some s)
    (hc : ¬ (b = 0x2F ∧ rest.head? = some 0x2F)) : Longest (.symbol s) [b] (b :: rest) := by
  have hspell := spelling_mark? b
  rw [hb] at hspell
  simp only [Option.all_some, decide_eq_true_eq] at hspell
  refine .intro (hspell.2 ▸ .mark hspell.1) hc fun v tail hv _ => ?_
  rw [hv.of_mark hb]
  exact Nat.zero_lt_one

/-- A comment runs from its mark up to the end of the line or of the source. -/
structure Comment (w after : List UInt8) : Prop where
  opens : commentMark <+: w
  inLine : lineFeed ∉ w
  ends : after = [] ∨ after.head? = some lineFeed

/-- A byte that starts no lexeme, and all tail bytes that directly follow it. -/
structure Stray (w after : List UInt8) : Prop where
  noLexeme : ∀ b ∈ w.head?, ∀ kind v, ¬ Lexeme kind (b :: v)
  noBlank : ∀ b ∈ w.head?, isSpace b = false
  tails : ∀ c ∈ w.tail, 0x80 ≤ c ∧ c ≤ 0xBF
  ends : ∀ c ∈ after.head?, ¬ (0x80 ≤ c ∧ c ≤ 0xBF)

/-- A quote with no quote behind it, and the whole rest of the source. -/
structure Unclosed (w after : List UInt8) : Prop where
  opens : w.head? = some quote
  noClose : quote ∉ w.tail
  ends : after = []

theorem isTail_iff : ∀ c, isTail c = true ↔ 0x80 ≤ c ∧ c ≤ 0xBF := forall_byte (by decide +kernel)

/-- What the piece is that takes the bytes `w` off the front of a source and leaves `after`. -/
def Piece.Fits (w after : List UInt8) : Piece → Prop
  | .blank => (∃ b, isSpace b = true ∧ w = [b]) ∨ Comment w after
  | .token kind => Longest kind w (w ++ after)
  | .fault .unterminatedString => Unclosed w after
  | .fault (.unexpected text) => Stray w after ∧ text = Utf8.lenient w

theorem fits_cutComment (h : rest.head? = some 0x2F) :
    (cutComment rest).piece.Fits (cutComment rest).taken (cutComment rest).rest := by
  refine .inr ⟨?_, ?_, ?_⟩
  · cases rest with
    | nil => cases h
    | cons c rest =>
      cases Option.some.inj h
      exact ⟨_, rfl⟩
  · intro hl
    rcases List.mem_cons.1 hl with hl | hl
    · exact absurd hl (by decide)
    · simpa using List.mem_takeWhile_imp hl
  · have := List.head?_dropWhile_not (· != lineFeed) rest
    cases hd : rest.dropWhile (· != lineFeed) with
    | nil => exact .inl hd
    | cons c after => exact .inr (by simpa [cutComment, hd] using this)

theorem fits_cutString :
    (cutString rest).piece.Fits (cutString rest).taken (cutString rest).rest := by
  cases hd : rest.dropWhile (· != quote) with
  | nil =>
    simp only [cutString, hd]
    refine ⟨rfl, fun hq => ?_, rfl⟩
    simpa using List.mem_takeWhile_imp hq
  | cons close after =>
    have hp : (cutString rest).piece =
        .token (.string (Utf8.lenient (rest.takeWhile (· != quote)))) := by
      simp only [cutString, hd]
    rw [hp]
    have := longest_cutString hp
    rwa [← cutString_append] at this

theorem fits_cutUnexpected (hb : ∀ kind v, ¬ Lexeme kind (b :: v)) (hs : isSpace b = false) :
    (cutUnexpected b rest).piece.Fits (cutUnexpected b rest).taken (cutUnexpected b rest).rest := by
  refine ⟨⟨?_, ?_, fun c hc => (isTail_iff c).1 (List.mem_takeWhile_imp hc), fun c hc ht => ?_⟩, rfl⟩
  · rintro _ ⟨⟩
    exact hb
  · rintro _ ⟨⟩
    exact hs
  · have := List.head?_dropWhile_not isTail rest
    rw [show (rest.dropWhile isTail).head? = some c from hc] at this
    exact absurd ((isTail_iff c).2 ht) (by simpa using this)

/-- What is cut off the front of a source is a blank, the longest lexeme there or, where no lexeme
is, a fault. -/
theorem cut_fits (b : UInt8) (rest : List UInt8) :
    (cut b rest).piece.Fits (cut b rest).taken (cut b rest).rest := by
  have token : ∀ {c : Cut}, c.taken ++ c.rest = b :: rest →
      (∀ kind, c.piece = .token kind → Longest kind c.taken (b :: rest)) →
      (∃ kind, c.piece = .token kind) → c.piece.Fits c.taken c.rest := by
    rintro c happ hl ⟨kind, hk⟩
    rw [hk]
    rw [← happ] at hl
    exact hl kind hk
  unfold cut
  split
  next hs => exact .inl ⟨b, hs, rfl⟩
  split
  next hc => exact fits_cutComment hc.2
  split
  next hq => exact fits_cutString
  split
  next hd =>
    refine token (cutNumber_append b rest) (fun _ => longest_cutNumber hd) ?_
    unfold cutNumber
    split
    · split <;> exact ⟨_, rfl⟩
    · exact ⟨_, rfl⟩
  split
  next hl => exact token (by simp [cutWord]) (fun _ => longest_cutWord hl) ⟨_, rfl⟩
  next hslash hq hd hl =>
    cases he : equalMarks? b with
    | some p =>
      obtain ⟨hshort, hlong⟩ := longest_equalMark he rest
      split
      next after heq => cases heq; exact hlong after rfl
      next heq hne =>
        cases heq
        refine hshort fun hr => ?_
        obtain ⟨after, rfl⟩ := List.head?_eq_some_iff.1 hr
        exact hne after rfl
      next heq => cases heq
    | none =>
      dsimp only
      split
      next s hm => exact longest_mark hm hslash
      next hm =>
        refine fits_cutUnexpected (fun kind v hv => ?_) (Bool.eq_false_iff.2 ‹_›)
        cases hv.begins with
        | mark h => rw [hm] at h; cases h
        | equalMark h => rw [he] at h; cases h
        | word h | whole h | fraction h | string h => contradiction

end Source

end Lox
