/-
The texts of floats. The decimal that a text spells is in the span of the number
that is written (`Normal.holds_fullText`), so that two finite floats with one text are
one float (`eq_of_inFull`).
-/
import Lox.Decimal.Style
import Lox.Decimal.Read
import Lox.Proofs.Decimal.Span
import Mathlib.Data.List.TakeWhile
import Mathlib.Data.Nat.Cast.Field

namespace Lox.Decimal

/-! ## The decimal that a text spells -/

/-- The value of a decimal. -/
def Numeral.value (n : Numeral) : ℚ := n.digits * 10 ^ n.exponent

/-- Digits and a point. -/
def Numeral.ofText (text : List Char) : Numeral :=
  let whole := text.takeWhile Char.isDigit
  let fraction := (text.dropWhile Char.isDigit).tail
  ⟨natOfDigits (whole ++ fraction), -(fraction.length : Int)⟩

variable {digits fraction : List Char}

theorem Numeral.ofText_digits (h : ∀ c ∈ digits, c.isDigit = true) :
    ofText digits = ⟨natOfDigits digits, 0⟩ := by
  have hw : digits.takeWhile Char.isDigit = digits := List.takeWhile_eq_self_iff.2 h
  have hr : digits.dropWhile Char.isDigit = [] := List.dropWhile_eq_nil_iff.2 h
  rw [ofText, hw, hr]
  simp

theorem Numeral.ofText_point (h : ∀ c ∈ digits, c.isDigit = true) :
    ofText (digits ++ '.' :: fraction) =
      ⟨natOfDigits (digits ++ fraction), -(fraction.length : Int)⟩ := by
  have hw : (digits ++ '.' :: fraction).takeWhile Char.isDigit = digits := by
    rw [List.takeWhile_append_of_pos h, List.takeWhile_cons_of_neg (by decide), List.append_nil]
  have hr : (digits ++ '.' :: fraction).dropWhile Char.isDigit = '.' :: fraction := by
    rw [List.dropWhile_append_of_pos h, List.dropWhile_cons_of_neg (by decide)]
  rw [ofText, hw, hr]
  rfl

theorem isDigit_digitsOf {n : Nat} : ∀ c ∈ digitsOf n, c.isDigit = true :=
  fun _ hc => Nat.isDigit_of_mem_toDigits (by decide) (by decide) hc

theorem natOfDigits_eq (digits : List Char) : natOfDigits digits = Nat.ofDigitChars 10 digits 0 :=
  Nat.ofDigitChars_eq_foldl.symm

/-- Digits spell the number that they are the digits of. -/
theorem natOfDigits_digitsOf (n : Nat) : natOfDigits (digitsOf n) = n := by
  rw [natOfDigits_eq, digitsOf, Nat.ofDigitChars_ten_toDigits]

/-- Zeros behind the digits. -/
theorem natOfDigits_append_zeros (digits : List Char) (k : Nat) :
    natOfDigits (digits ++ List.replicate k '0') = natOfDigits digits * 10 ^ k := by
  rw [natOfDigits_eq, natOfDigits_eq, Nat.ofDigitChars_append, Nat.ofDigitChars_replicate_zero,
    Nat.mul_comm]

/-- Zeros in front of the digits. -/
theorem natOfDigits_zeros_append (digits : List Char) (k : Nat) :
    natOfDigits (List.replicate k '0' ++ digits) = natOfDigits digits := by
  rw [natOfDigits_eq, natOfDigits_eq, Nat.ofDigitChars_append, Nat.ofDigitChars_replicate_zero,
    Nat.mul_zero]

namespace Numeral

/-- The text of a whole number, with zeros behind the digits. -/
theorem ofText_whole (n k : Nat) :
    ofText (digitsOf n ++ List.replicate k '0') = ⟨n * 10 ^ k, 0⟩ := by
  have hall : ∀ c ∈ digitsOf n ++ List.replicate k '0', c.isDigit = true := by
    refine List.forall_mem_append.2 ⟨isDigit_digitsOf, fun c hc => ?_⟩
    rw [List.eq_of_mem_replicate hc]
    rfl
  rw [ofText_digits hall, natOfDigits_append_zeros, natOfDigits_digitsOf]

/-- The text with the point between the digits. -/
theorem ofText_between {n places : Nat} (h : places < (digitsOf n).length) :
    ofText ((digitsOf n).take ((digitsOf n).length - places) ++
      '.' :: (digitsOf n).drop ((digitsOf n).length - places)) = ⟨n, -places⟩ := by
  have htake : ∀ c ∈ (digitsOf n).take ((digitsOf n).length - places), c.isDigit = true :=
    fun c hc => isDigit_digitsOf c (List.mem_of_mem_take hc)
  have hlength : (digitsOf n).length - ((digitsOf n).length - places) = places := by omega
  rw [ofText_point htake, List.take_append_drop, natOfDigits_digitsOf, List.length_drop, hlength]

/-- The text with the point, and zeros behind it, in front of the digits. -/
theorem ofText_before {n places : Nat} (h : (digitsOf n).length ≤ places) :
    ofText ('0' :: '.' :: (List.replicate (places - (digitsOf n).length) '0' ++ digitsOf n)) =
      ⟨n, -places⟩ := by
  have hlength : places - (digitsOf n).length + (digitsOf n).length = places := by omega
  have hzeros := natOfDigits_zeros_append (digitsOf n) (places - (digitsOf n).length + 1)
  rw [List.replicate_succ, List.cons_append, natOfDigits_digitsOf] at hzeros
  refine (ofText_point (List.forall_mem_singleton.2 rfl)).trans ?_
  rw [List.singleton_append, hzeros, List.length_append, List.length_replicate, hlength]

/-- The point is where it belongs. -/
theorem value_ofText_positional (n : Numeral) : (ofText n.positional.toList).value = n.value := by
  unfold positional
  dsimp only
  rw [String.toList_ofList]
  split
  next hplaces =>
    have hpower : (10 : ℚ) ^ n.exponent = 10 ^ n.exponent.toNat := by
      rw [← zpow_natCast]
      congr 1
      omega
    rw [ofText_whole, value, value, hpower, zpow_zero, mul_one]
    push_cast
    rfl
  next hplaces =>
    have hexponent : -((-n.exponent).toNat : Int) = n.exponent := by omega
    split
    next hlt => rw [ofText_between hlt, hexponent]
    next hge => rw [ofText_before (Nat.le_of_not_lt hge), hexponent]

end Numeral

/-! ## Floats -/

/-- The text of a number without its sign: in full if it is whole, else in the fewest digits. -/
def fullText (mark : String) (m : Nat) (q : Int) : String :=
  match whole? m q with
  | some n => String.ofList (digitsOf n) ++ mark
  | none => plain.write (shortest plain.tie m q)

theorem inFull_eq (mark : String) : inFull mark = textBy (fullText mark) := rfl

theorem plain_write (n : Numeral) : plain.write n = n.positional := by
  rw [Style.write, if_pos (show plain.isPositional n = true from rfl)]
  split <;> exact String.append_empty

/-- A whole number is the number that it is said to be. -/
theorem whole_eq {m n : Nat} {q : Int} (h : whole? m q = some n) : (n : ℚ) = m * 2 ^ q := by
  cases q with
  | ofNat k =>
    cases h
    rw [Nat.shiftLeft_eq]
    push_cast
    rfl
  | negSucc k =>
    rw [whole?] at h
    split at h
    next hmod =>
      cases h
      rw [Nat.shiftRight_eq_div_pow]
      rw [Nat.one_shiftLeft] at hmod
      rw [Nat.cast_div (Nat.dvd_of_mod_eq_zero hmod) (by positivity), zpow_negSucc]
      push_cast
      rfl
    next => cases h

theorem Span.holds_mid (m : Nat) (q : Int) : (Span.of m q).Holds q (m * 2 ^ q) := by
  have hmid : (m : ℚ) * 2 ^ q = (4 * m : Nat) * quarter q := by
    have h : (2 : ℚ) ^ q = 4 * quarter q := by
      rw [quarter, show (4 : ℚ) = 2 ^ (2 : Int) by norm_num, ← zpow_add₀ (by norm_num)]
      congr 1
      omega
    rw [h]
    push_cast
    ring
  have hu := quarter_pos q
  have hlow : (Span.of m q).low ≤ 4 * m := by
    rcases Span.low_of_cases m q with hl | ⟨hl, -⟩ <;> omega
  have hstrict : (Span.of m q).closed = false → (Span.of m q).low < 4 * m := by
    intro hc
    have : m % 2 ≠ 0 := ne_of_beq_false hc
    rcases Span.low_of_cases m q with hl | ⟨hl, -⟩ <;> omega
  have hhigh : 4 * m < (Span.of m q).high := by rw [Span.high_of]; omega
  rw [hmid, Holds]
  split
  · exact ⟨mul_le_mul_of_nonneg_right (by exact_mod_cast hlow) hu.le,
      mul_le_mul_of_nonneg_right (by exact_mod_cast hhigh.le) hu.le⟩
  next hc =>
    exact ⟨mul_lt_mul_of_pos_right (by exact_mod_cast hstrict (Bool.eq_false_iff.2 hc)) hu,
      mul_lt_mul_of_pos_right (by exact_mod_cast hhigh) hu⟩

/-- The text of a number spells a decimal in its span. -/
theorem Normal.holds_fullText {m : Nat} {q : Int} (h : Normal m q) :
    (Span.of m q).Holds q (Numeral.ofText (fullText ".0" m q).toList).value := by
  unfold fullText
  split
  next n hn =>
    have htext : (String.ofList (digitsOf n) ++ ".0").toList = digitsOf n ++ ['.', '0'] := by
      rw [String.toList_append, String.toList_ofList]
      rfl
    have hzero := natOfDigits_append_zeros (digitsOf n) 1
    rw [natOfDigits_digitsOf] at hzero
    have hvalue : (Numeral.ofText (digitsOf n ++ ['.', '0'])).value = n := by
      rw [Numeral.ofText_point isDigit_digitsOf, Numeral.value]
      rw [show ['0'] = List.replicate 1 '0' from rfl, hzero, List.length_replicate]
      push_cast
      rw [zpow_neg, zpow_one]
      ring
    rw [htext, hvalue, whole_eq hn]
    exact Span.holds_mid m q
  next hnone =>
    have hm : m ≠ 0 := by
      rintro rfl
      cases q with
      | ofNat k => cases hnone
      | negSucc k =>
        rw [whole?, Nat.zero_mod, if_pos rfl] at hnone
        cases hnone
    rw [plain_write, Numeral.value_ofText_positional]
    exact h.holds_shortest hm plain.tie

theorem Normal.fullText_inj {m m' : Nat} {q q' : Int} (h : Normal m q) (h' : Normal m' q')
    (heq : fullText ".0" m q = fullText ".0" m' q') : m = m' ∧ q = q' :=
  h.apart h' h.holds_fullText (heq ▸ h'.holds_fullText)

/-- The fields of a finite pattern. -/
theorem Parts.fields_of_finite {bits : Nat} {negative : Bool} {m : Nat} {q : Int}
    (h : Parts.ofBits bits = .finite negative m q) : bits.testBit 63 = negative ∧
      (bits / hiddenBit % 2048 = 0 ∧ m = bits % hiddenBit ∧ q = -1074 ∨
        bits / hiddenBit % 2048 ≠ 0 ∧ bits / hiddenBit % 2048 ≠ 2047 ∧
          m = hiddenBit + bits % hiddenBit ∧ q = (bits / hiddenBit % 2048 : Nat) - 1075) := by
  simp only [ofBits] at h
  split at h
  next => split at h <;> cases h
  next htop =>
    split at h
    next hzero => cases h; exact ⟨rfl, .inl ⟨hzero, rfl, rfl⟩⟩
    next hzero => cases h; exact ⟨rfl, .inr ⟨hzero, htop, rfl, rfl⟩⟩

/-- What a finite pattern stands for is in the range of floats. -/
theorem Parts.normal_ofBits {bits : Nat} {negative : Bool} {m : Nat} {q : Int}
    (h : Parts.ofBits bits = .finite negative m q) : Normal m q := by
  obtain ⟨-, ⟨-, rfl, rfl⟩ | ⟨hzero, htop, rfl, rfl⟩⟩ := fields_of_finite h
  · exact ⟨ofBits_finite_lt h, fun hq => absurd rfl hq, by decide, by decide⟩
  · exact ⟨ofBits_finite_lt h, fun _ => Nat.le_add_right _ _, by omega, by omega⟩

/-- Two finite patterns that stand for the same are the same. -/
theorem Parts.ofBits_inj {bits bits' : Nat} (hb : bits < 2 ^ 64) (hb' : bits' < 2 ^ 64)
    {negative : Bool} {m : Nat} {q : Int} (h : Parts.ofBits bits = .finite negative m q)
    (h' : Parts.ofBits bits' = .finite negative m q) : bits = bits' := by
  have hbit : hiddenBit = 4503599627370496 := by decide
  obtain ⟨hsign, hfields⟩ := fields_of_finite h
  obtain ⟨hsign', hfields'⟩ := fields_of_finite h'
  have htop : bits / 2 ^ 63 % 2 = bits' / 2 ^ 63 % 2 := by
    have hboth := hsign.trans hsign'.symm
    rw [Nat.testBit_eq_decide_div_mod_eq, Nat.testBit_eq_decide_div_mod_eq, decide_eq_decide]
      at hboth
    omega
  rw [hbit] at hfields hfields'
  omega

theorem eq_of_toBits {x y : Float} (h : x.toBits = y.toBits) : x = y := by
  obtain ⟨⟨bits, hbits⟩⟩ := x
  obtain ⟨⟨bits', hbits'⟩⟩ := y
  cases h
  rfl

open Float.Model in
/-- The largest exponent is left to what is not finite. -/
theorem exponent_ne_of_isFinite {x : Float} (h : x.isFinite = true) :
    x.toBits.toNat / hiddenBit % 2048 ≠ 2047 := by
  intro he
  have hexponent :
      @UnpackedFloat.unpackExponent Format.binary64 x.toBits.toBitVec = -1#_ := by
    refine BitVec.eq_of_toNat_eq ?_
    rw [UnpackedFloat.unpackExponent, BitVec.toNat_cast, BitVec.extractLsb_toNat,
      Nat.shiftRight_eq_div_pow]
    exact he
  have hfinite : (UnpackedFloat.unpack Format.binary64 x.toBits.toBitVec).isFinite = true := h
  unfold UnpackedFloat.unpack at hfinite
  dsimp only at hfinite
  rw [if_pos hexponent] at hfinite
  split at hfinite <;> cases hfinite

/-- A finite float has a sign, an m and a q. -/
theorem parts_of_isFinite {x : Float} (h : x.isFinite = true) :
    ∃ negative m q, parts x = .finite negative m q := by
  unfold parts Parts.ofBits
  dsimp only
  rw [if_neg (exponent_ne_of_isFinite h)]
  split <;> exact ⟨_, _, _, rfl⟩

/-! ## The characters of a text -/

/-- A digit in front, and digits and points behind it. -/
def Digital (text : List Char) : Prop :=
  ∃ c rest, text = c :: rest ∧ c.isDigit = true ∧ ∀ d ∈ rest, d.isDigit = true ∨ d = '.'

theorem Digital.append {text more : List Char} (h : Digital text)
    (hmore : ∀ d ∈ more, d.isDigit = true ∨ d = '.') : Digital (text ++ more) := by
  obtain ⟨c, rest, rfl, hc, hrest⟩ := h
  refine ⟨c, rest ++ more, rfl, hc, fun d hd => ?_⟩
  exact (List.mem_append.1 hd).elim (hrest d) (hmore d)

theorem digital_of_digits {text : List Char} (hne : text ≠ [])
    (h : ∀ c ∈ text, c.isDigit = true) : Digital text := by
  obtain ⟨c, rest, rfl⟩ := List.exists_cons_of_ne_nil hne
  rw [List.forall_mem_cons] at h
  exact ⟨c, rest, rfl, h.1, fun d hd => .inl (h.2 d hd)⟩

theorem digital_digitsOf (n : Nat) : Digital (digitsOf n) :=
  digital_of_digits Nat.toDigits_ne_nil isDigit_digitsOf

theorem digital_positional (n : Numeral) : Digital n.positional.toList := by
  have hdigits := isDigit_digitsOf (n := n.digits)
  have hzeros {k : Nat} : ∀ d ∈ List.replicate k '0', d.isDigit = true ∨ d = '.' := by
    intro d hd
    rw [List.eq_of_mem_replicate hd]
    exact .inl rfl
  unfold Numeral.positional
  dsimp only
  rw [String.toList_ofList]
  split
  · exact (digital_digitsOf n.digits).append hzeros
  · split
    next hlt =>
      refine (digital_of_digits ?_ fun c hc => hdigits c (List.mem_of_mem_take hc)).append ?_
      · rw [← List.length_pos_iff, List.length_take]
        omega
      · exact List.forall_mem_cons.2 ⟨.inr rfl, fun d hd => .inl (hdigits d (List.mem_of_mem_drop hd))⟩
    next =>
      refine ⟨'0', _, rfl, rfl, List.forall_mem_cons.2 ⟨.inr rfl, fun d hd => ?_⟩⟩
      exact (List.mem_append.1 hd).elim (hzeros d) fun h => .inl (hdigits d h)

theorem digital_fullText (m : Nat) (q : Int) : Digital (fullText ".0" m q).toList := by
  unfold fullText
  split
  next n _ =>
    have hmark : ∀ d ∈ ['.', '0'], d.isDigit = true ∨ d = '.' :=
      List.forall_mem_cons.2 ⟨.inr rfl, List.forall_mem_singleton.2 (.inl rfl)⟩
    rw [String.toList_append, String.toList_ofList]
    exact (digital_digitsOf n).append hmark
  next => rw [plain_write]; exact digital_positional _

/-- A sign is no digit. -/
theorem signed_inj {negative negative' : Bool} {text text' : String} (h : Digital text.toList)
    (h' : Digital text'.toList) (heq : signed negative text = signed negative' text') :
    negative = negative' ∧ text = text' := by
  have hsign {text : String} (h : Digital text.toList) {text' : String} : text ≠ "-" ++ text' := by
    rintro rfl
    obtain ⟨c, rest, htext, hc, -⟩ := h
    rw [String.toList_append] at htext
    cases htext
    cases hc
  cases negative <;> cases negative' <;> simp only [signed] at heq
  · exact ⟨rfl, heq⟩
  · exact absurd heq (hsign h)
  · exact absurd heq.symm (hsign h')
  · exact ⟨rfl, String.append_right_inj _ |>.1 heq⟩

variable {x y : Float}

/-- The text of a finite float is made of digits, points and signs. -/
theorem inFull_chars (hx : x.isFinite = true) : inFull ".0" x ≠ "" ∧
    ∀ c ∈ (inFull ".0" x).toList, c.isDigit = true ∨ c = '.' ∨ c = '-' := by
  obtain ⟨negative, m, q, hparts⟩ := parts_of_isFinite hx
  obtain ⟨c, rest, htext, hc, hrest⟩ := digital_fullText m q
  have hall : ∀ d ∈ (fullText ".0" m q).toList, d.isDigit = true ∨ d = '.' ∨ d = '-' := by
    rw [htext]
    exact List.forall_mem_cons.2 ⟨.inl hc, fun d hd => (hrest d hd).imp_right .inl⟩
  have hne : fullText ".0" m q ≠ "" := by
    rw [ne_eq, ← String.toList_inj, htext]
    exact List.cons_ne_nil c rest
  have htext : inFull ".0" x = signed negative (fullText ".0" m q) := by
    rw [inFull_eq, textBy, hparts]
  rw [htext]
  cases negative with
  | false => exact ⟨hne, hall⟩
  | true =>
    rw [signed, if_pos rfl, ne_eq, ← String.toList_inj, String.toList_append]
    exact ⟨List.cons_ne_nil _ _, List.forall_mem_cons.2 ⟨.inr (.inr rfl), hall⟩⟩

/-- Finite floats with one text are one float. -/
theorem eq_of_inFull (hx : x.isFinite = true) (hy : y.isFinite = true)
    (h : inFull ".0" x = inFull ".0" y) : x = y := by
  obtain ⟨negative, m, q, hparts⟩ := parts_of_isFinite hx
  obtain ⟨negative', m', q', hparts'⟩ := parts_of_isFinite hy
  rw [inFull_eq, textBy, textBy, hparts, hparts'] at h
  obtain ⟨rfl, htext⟩ := signed_inj (digital_fullText m q) (digital_fullText m' q') h
  obtain ⟨rfl, rfl⟩ :=
    (Parts.normal_ofBits hparts).fullText_inj (Parts.normal_ofBits hparts') htext
  refine eq_of_toBits (UInt64.toNat_inj.1 ?_)
  exact Parts.ofBits_inj x.toBits.toNat_lt y.toBits.toNat_lt hparts hparts'

end Lox.Decimal
