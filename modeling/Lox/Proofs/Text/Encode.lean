/-
Text as bytes and back. A character is read just where its bytes stand
(`next_eq_char_iff`), so the bytes of a text are read as that text
(`lenient_encode`). An ASCII byte stands for its own character and nothing else:
it is among the bytes of a text only where the character is in the text, and it
ends whatever ill-formed piece stands before it (`lenient_append`).
-/
import Lox.Proofs.Source.Lexemes

namespace Lox.Utf8

/-! ## The bytes of a text -/

theorem toList_loop (bytes : ByteArray) (i : Nat) (found : List UInt8) :
    ByteArray.toList.loop bytes i found = found.reverse ++ bytes.data.toList.drop i := by
  fun_induction ByteArray.toList.loop bytes i found with
  | case1 i found hi ih =>
    have hlength : i < bytes.data.toList.length := by simpa using hi
    rw [ih, List.drop_eq_getElem_cons hlength]
    simp [ByteArray.get!, hi]
  | case2 i found hi =>
    rw [List.drop_eq_nil_of_le (by simpa using Nat.le_of_not_lt hi), List.append_nil]

theorem encode_eq (text : String) : encode text = text.toList.flatMap String.utf8EncodeChar := by
  have hbytes : text.toUTF8 = text.toList.utf8Encode := by
    rw [← String.toByteArray_ofList, String.ofList_toList]
    rfl
  rw [encode, ByteArray.toList, toList_loop, hbytes, List.utf8Encode, List.toList_data_toByteArray]
  rfl

@[simp] theorem encode_append (first second : String) :
    encode (first ++ second) = encode first ++ encode second := by
  simp [encode_eq]

/-! ## First bytes -/

section

variable {b : UInt8} (bytes : List UInt8)

theorem next_two (h : 0xC2 ≤ b.toNat ∧ b.toNat < 0xE0) :
    next b bytes = tails 1 0x80 0xBF (b.toNat - 0xC0) 1 bytes := by
  simp only [next, lead?, UInt8.lt_iff_toNat_lt, UInt8.reduceToNat]
  rw [if_neg (by omega), if_neg (by omega), if_pos (by omega)]

theorem next_three (h : 0xE0 ≤ b.toNat ∧ b.toNat < 0xF0) :
    next b bytes = tails 2 (if b.toNat = 0xE0 then 0xA0 else 0x80)
      (if b.toNat = 0xED then 0x9F else 0xBF) (b.toNat - 0xE0) 1 bytes := by
  simp only [next, lead?, UInt8.lt_iff_toNat_lt, ← UInt8.toNat_inj, UInt8.reduceToNat]
  rw [if_neg (by omega), if_neg (by omega), if_neg (by omega), if_pos (by omega)]

theorem next_four (h : 0xF0 ≤ b.toNat ∧ b.toNat < 0xF5) :
    next b bytes = tails 3 (if b.toNat = 0xF0 then 0x90 else 0x80)
      (if b.toNat = 0xF4 then 0x8F else 0xBF) (b.toNat - 0xF0) 1 bytes := by
  simp only [next, lead?, UInt8.lt_iff_toNat_lt, ← UInt8.toNat_inj, UInt8.reduceToNat]
  rw [if_neg (by omega), if_neg (by omega), if_neg (by omega), if_neg (by omega), if_pos (by omega)]

theorem next_none (h : 0x80 ≤ b.toNat ∧ b.toNat < 0xC2 ∨ 0xF5 ≤ b.toNat) :
    next b bytes = (.invalid 1, bytes) := by
  simp only [next, lead?, UInt8.lt_iff_toNat_lt, UInt8.reduceToNat]
  rw [if_neg (by omega)]
  by_cases hb : b.toNat < 0xC2
  · rw [if_pos hb]
  · rw [if_neg hb, if_neg (by omega), if_neg (by omega), if_neg (by omega)]

end

/-- The first tail byte is at least 80, whatever it follows. -/
theorem low_of_lead? {b : UInt8} {l : Lead} (h : lead? b = some l) : 0x80 ≤ l.low := by
  unfold lead? at h
  split at h
  · cases h; exact UInt8.le_refl _
  split at h
  · cases h
  split at h
  · cases h; exact UInt8.le_refl _
  split at h
  · cases h; dsimp only; split <;> decide
  split at h
  · cases h; dsimp only; split <;> decide
  · cases h

/-! ## Characters -/

theorem toNat_ofNat {n : Nat} (h : n < 256) : (UInt8.ofNat n).toNat = n := by
  simpa using Nat.mod_eq_of_lt h

theorem toNat_ite {p : Prop} [Decidable p] (a b : UInt8) :
    (if p then a else b).toNat = if p then a.toNat else b.toNat := apply_ite ..

section

variable {owed code seen : Nat} {low high : UInt8} {bytes after : List UInt8} {c : Char}

theorem tails_cons {b : UInt8} (h : low.toNat ≤ b.toNat ∧ b.toNat ≤ high.toNat) :
    tails (owed + 1) low high code seen (b :: bytes) =
      tails owed 0x80 0xBF (code * 64 + (b.toNat - 0x80)) (seen + 1) bytes := by
  rw [tails, if_pos (by rwa [UInt8.le_iff_toNat_le, UInt8.le_iff_toNat_le])]

theorem tails_eq_char (h : tails (owed + 1) low high code seen bytes = (.char c, after)) :
    ∃ b rest, bytes = b :: rest ∧ low.toNat ≤ b.toNat ∧ b.toNat ≤ high.toNat ∧
      tails owed 0x80 0xBF (code * 64 + (b.toNat - 0x80)) (seen + 1) rest = (.char c, after) := by
  cases bytes with
  | nil => cases h
  | cons b rest =>
    rw [tails] at h
    split at h
    next hb =>
      rw [UInt8.le_iff_toNat_le, UInt8.le_iff_toNat_le] at hb
      exact ⟨b, rest, rfl, hb.1, hb.2, h⟩
    next => cases h

theorem tails_zero_eq_char (h : tails 0 low high code seen bytes = (.char c, after))
    (hcode : code.isValidChar) : c.toNat = code ∧ after = bytes := by
  rw [tails] at h
  cases h
  rw [Char.ofNat, dif_pos hcode]
  exact ⟨rfl, rfl⟩

end

/-- The bytes of a character are read as that character, whatever is behind them. -/
theorem next_encodeChar (c : Char) (rest : List UInt8) : ∃ b tail,
    String.utf8EncodeChar c = b :: tail ∧ next b (tail ++ rest) = (.char c, rest) := by
  have hvalid : c.toNat.isValidChar := c.valid
  have hchar : Char.ofNat c.toNat = c := c.ofNat_toNat
  have htail (n : Nat) : (UInt8.ofNat (n % 0x40 + 0x80)).toNat = n % 0x40 + 0x80 :=
    toNat_ofNat (by omega)
  have tail {owed code seen : Nat} {bytes : List UInt8} (n : Nat) :
      tails (owed + 1) 0x80 0xBF code seen (UInt8.ofNat (n % 0x40 + 0x80) :: bytes) =
        tails owed 0x80 0xBF (code * 64 + n % 0x40) (seen + 1) bytes := by
    rw [tails_cons (by simp only [htail, UInt8.reduceToNat]; omega), htail, Nat.add_sub_cancel]
  simp only [String.utf8EncodeChar, Char.toNat_val]
  generalize c.toNat = n at hvalid hchar
  split
  next h =>
    have hb : (UInt8.ofNat n).toNat = n := toNat_ofNat (by omega)
    refine ⟨_, [], rfl, ?_⟩
    rw [next_of_ascii (by rw [UInt8.lt_iff_toNat_lt, hb]; exact Nat.lt_succ_of_le h), hb, hchar]
    rfl
  split
  next h =>
    have hb : (UInt8.ofNat (n / 64 % 0x20 + 0xc0)).toNat = n / 64 + 0xc0 := by
      rw [toNat_ofNat (by omega)]
      omega
    refine ⟨_, _, rfl, ?_⟩
    rw [next_two _ (by omega), List.cons_append, tail, List.nil_append, tails, hb, show (n / 64 + 0xc0 - 0xC0) * 64 + n % 0x40 = n by omega, hchar]
  split
  next h =>
    have hb : (UInt8.ofNat (n / 4096 % 0x10 + 0xe0)).toNat = n / 4096 + 0xe0 := by
      rw [toNat_ofNat (by omega)]
      omega
    refine ⟨_, _, rfl, ?_⟩
    rw [next_three _ (by omega), List.cons_append, List.cons_append, tails_cons, tail,
      List.nil_append, tails, hb, htail,
      show ((n / 4096 + 0xe0 - 0xE0) * 64 + (n / 64 % 0x40 + 0x80 - 0x80)) * 64 + n % 0x40 = n
        by omega, hchar]
    rw [htail, hb, toNat_ite, toNat_ite]
    simp only [UInt8.reduceToNat]
    split <;> split <;> omega
  next h =>
    have hb : (UInt8.ofNat (n / 262144 % 0x08 + 0xf0)).toNat = n / 262144 + 0xf0 := by
      rw [toNat_ofNat (by omega)]
      omega
    refine ⟨_, _, rfl, ?_⟩
    rw [next_four _ (by omega), List.cons_append, List.cons_append, List.cons_append, tails_cons,
      tail, tail, List.nil_append, tails, hb, htail,
      show (((n / 262144 + 0xf0 - 0xF0) * 64 + (n / 4096 % 0x40 + 0x80 - 0x80)) * 64 +
        n / 64 % 0x40) * 64 + n % 0x40 = n by omega, hchar]
    rw [htail, hb, toNat_ite, toNat_ite]
    simp only [UInt8.reduceToNat]
    split <;> split <;> omega

/-- What is read as a character are its bytes. -/
theorem eq_encodeChar_of_next {b : UInt8} {bytes after : List UInt8} {c : Char}
    (h : next b bytes = (.char c, after)) : b :: bytes = String.utf8EncodeChar c ++ after := by
  have byte {n : Nat} (b : UInt8) (h : n = b.toNat) : UInt8.ofNat n = b := h ▸ UInt8.ofNat_toNat
  have hlt := b.toNat_lt
  simp only [String.utf8EncodeChar, Char.toNat_val]
  rcases Nat.lt_or_ge b.toNat 0x80 with hb | hb
  · rw [next_of_ascii (UInt8.lt_iff_toNat_lt.2 hb)] at h
    cases h
    have hc : (Char.ofNat b.toNat).toNat = b.toNat := Source.toNat_char b
    rw [hc, if_pos (by omega), byte b rfl]
    rfl
  rcases Nat.lt_or_ge b.toNat 0xC2 with hb' | hb'
  · rw [next_none _ (.inl ⟨hb, hb'⟩)] at h
    cases h
  rcases Nat.lt_or_ge b.toNat 0xE0 with hb'' | hb''
  · rw [next_two _ ⟨hb', hb''⟩] at h
    obtain ⟨b₁, rest, rfl, hl₁, hh₁, h⟩ := tails_eq_char h
    simp only [UInt8.reduceToNat] at hl₁ hh₁
    obtain ⟨hc, rfl⟩ := tails_zero_eq_char h (.inl (by omega))
    rw [hc, if_neg (by omega), if_pos (by omega), byte b (by omega), byte b₁ (by omega)]
    rfl
  rcases Nat.lt_or_ge b.toNat 0xF0 with hf | hf
  · rw [next_three _ ⟨hb'', hf⟩] at h
    obtain ⟨b₁, rest, rfl, hl₁, hh₁, h⟩ := tails_eq_char h
    obtain ⟨b₂, rest, rfl, hl₂, hh₂, h⟩ := tails_eq_char h
    simp only [toNat_ite, UInt8.reduceToNat] at hl₁ hh₁ hl₂ hh₂
    have hlow : 0x80 ≤ b₁.toNat ∧ (b.toNat = 0xE0 → 0xA0 ≤ b₁.toNat) := by
      split at hl₁ <;> omega
    have hhigh : b₁.toNat ≤ 0xBF ∧ (b.toNat = 0xED → b₁.toNat ≤ 0x9F) := by
      split at hh₁ <;> omega
    obtain ⟨hc, rfl⟩ := tails_zero_eq_char h (by rw [Nat.isValidChar]; omega)
    rw [hc, if_neg (by omega), if_neg (by omega), if_pos (by omega), byte b (by omega),
      byte b₁ (by omega), byte b₂ (by omega)]
    rfl
  rcases Nat.lt_or_ge b.toNat 0xF5 with hf' | hf'
  · rw [next_four _ ⟨hf, hf'⟩] at h
    obtain ⟨b₁, rest, rfl, hl₁, hh₁, h⟩ := tails_eq_char h
    obtain ⟨b₂, rest, rfl, hl₂, hh₂, h⟩ := tails_eq_char h
    obtain ⟨b₃, rest, rfl, hl₃, hh₃, h⟩ := tails_eq_char h
    simp only [toNat_ite, UInt8.reduceToNat] at hl₁ hh₁ hl₂ hh₂ hl₃ hh₃
    have hlow : 0x80 ≤ b₁.toNat ∧ (b.toNat = 0xF0 → 0x90 ≤ b₁.toNat) := by
      split at hl₁ <;> omega
    have hhigh : b₁.toNat ≤ 0xBF ∧ (b.toNat = 0xF4 → b₁.toNat ≤ 0x8F) := by
      split at hh₁ <;> omega
    obtain ⟨hc, rfl⟩ := tails_zero_eq_char h (by rw [Nat.isValidChar]; omega)
    rw [hc, if_neg (by omega), if_neg (by omega), if_neg (by omega), byte b (by omega),
      byte b₁ (by omega), byte b₂ (by omega), byte b₃ (by omega)]
    rfl
  · rw [next_none _ (.inr hf')] at h
    cases h

/-- A character is read just where its bytes stand. -/
theorem next_eq_char_iff {b : UInt8} {bytes after : List UInt8} {c : Char} :
    next b bytes = (.char c, after) ↔ b :: bytes = String.utf8EncodeChar c ++ after := by
  refine ⟨eq_encodeChar_of_next, fun h => ?_⟩
  obtain ⟨b', tail, hc, hnext⟩ := next_encodeChar c after
  rw [hc] at h
  cases h
  exact hnext

/-! ## Texts -/

theorem pieces_encodeChar (c : Char) (rest : List UInt8) :
    pieces (String.utf8EncodeChar c ++ rest) = .char c :: pieces rest := by
  obtain ⟨b, tail, hc, hnext⟩ := next_encodeChar c rest
  rw [hc, List.cons_append, pieces_cons, hnext]

/-- The bytes of a text are read as its characters. -/
theorem pieces_encode (text : String) : pieces (encode text) = text.toList.map .char := by
  rw [encode_eq]
  induction text.toList with
  | nil => exact pieces_nil
  | cons c rest ih => rw [List.flatMap_cons, pieces_encodeChar, ih, List.map_cons]

theorem lenient_encode (text : String) : lenient (encode text) = text := by
  rw [lenient, pieces_encode, List.map_map, show Piece.shown ∘ Piece.char = id from rfl, List.map_id,
    String.ofList_toList]

/-- Bytes below 128 are the bytes of their text. -/
theorem encode_lenient_of_ascii {bytes : List UInt8} (h : ∀ b ∈ bytes, b < 0x80) :
    encode (lenient bytes) = bytes := by
  rw [encode_eq, toList_lenient h]
  induction bytes with
  | nil => rfl
  | cons b rest ih =>
    obtain ⟨hb, hrest⟩ := List.forall_mem_cons.1 h
    have hchar := next_eq_char_iff.1 (next_of_ascii hb [])
    rw [List.append_nil] at hchar
    rw [charsOf, List.map_cons, List.flatMap_cons, ← hchar, List.singleton_append]
    exact congrArg (b :: ·) (ih hrest)

/-! ## ASCII bytes -/

/-- A byte below 128 among the bytes of a character is the whole character. -/
theorem eq_of_mem_encodeChar {q : UInt8} (hq : q < 0x80) {c : Char}
    (h : q ∈ String.utf8EncodeChar c) : c = Char.ofNat q.toNat := by
  have hq : q.toNat < 0x80 := UInt8.lt_iff_toNat_lt.1 hq
  have long {n : Nat} (hn : 0x80 ≤ n ∧ n < 0x100) : q ≠ UInt8.ofNat n := by
    rintro rfl
    rw [toNat_ofNat hn.2] at hq
    omega
  simp only [String.utf8EncodeChar, Char.toNat_val] at h
  split at h
  next hc =>
    rw [List.mem_singleton] at h
    rw [h, toNat_ofNat (by omega), Char.ofNat_toNat]
  -- every byte of a longer character is at least 128
  all_goals
    have hvalid : c.toNat.isValidChar := c.valid
    rw [Nat.isValidChar] at hvalid
  · split at h
    · simp only [List.mem_cons, List.not_mem_nil, or_false] at h
      rcases h with h | h <;> exact absurd h (long (by omega))
    split at h
    · simp only [List.mem_cons, List.not_mem_nil, or_false] at h
      rcases h with h | h | h <;> exact absurd h (long (by omega))
    · simp only [List.mem_cons, List.not_mem_nil, or_false] at h
      rcases h with h | h | h | h <;> exact absurd h (long (by omega))

/-- A byte below 128 is in the bytes of a text only if its character is in the text. -/
theorem mem_encode {q : UInt8} (hq : q < 0x80) {text : String} (h : q ∈ encode text) :
    Char.ofNat q.toNat ∈ text.toList := by
  rw [encode_eq, List.mem_flatMap] at h
  obtain ⟨c, hc, hmem⟩ := h
  exact eq_of_mem_encodeChar hq hmem ▸ hc

/-- Behind a byte that begins a character or none, an ASCII byte ends what is not complete. -/
theorem tails_append {q : UInt8} (hq : q < 0x80) (rest bytes : List UInt8) {owed code seen : Nat}
    {low high : UInt8} (hlow : 0x80 ≤ low) :
    (tails owed low high code seen (bytes ++ q :: rest)).1.shown =
        (tails owed low high code seen bytes).1.shown ∧
      (tails owed low high code seen (bytes ++ q :: rest)).2 =
        (tails owed low high code seen bytes).2 ++ q :: rest := by
  have hq' : ∀ {l : UInt8}, 0x80 ≤ l → ¬ l ≤ q := fun hl hle =>
    absurd (UInt8.lt_of_le_of_lt (UInt8.le_trans hl hle) hq) (UInt8.lt_irrefl _)
  induction bytes generalizing owed code seen low high with
  | nil =>
    cases owed with
    | zero => exact ⟨rfl, rfl⟩
    | succ owed =>
      have hstop : tails (owed + 1) low high code seen (q :: rest) = (.invalid seen, q :: rest) :=
        if_neg fun h => hq' hlow h.1
      rw [List.nil_append, hstop]
      exact ⟨rfl, rfl⟩
  | cons b bytes ih =>
    cases owed with
    | zero => exact ⟨rfl, rfl⟩
    | succ owed =>
      rw [List.cons_append, tails, tails]
      split
      · exact ih (UInt8.le_refl _)
      · exact ⟨rfl, rfl⟩

theorem next_append {q : UInt8} (hq : q < 0x80) (rest : List UInt8) (b : UInt8)
    (bytes : List UInt8) :
    (next b (bytes ++ q :: rest)).1.shown = (next b bytes).1.shown ∧
      (next b (bytes ++ q :: rest)).2 = (next b bytes).2 ++ q :: rest := by
  unfold next
  split
  next => exact ⟨rfl, rfl⟩
  next l hl => exact tails_append hq rest bytes (low_of_lead? hl)

/-- An ASCII byte is its own character. -/
theorem lenient_cons {q : UInt8} (hq : q < 0x80) (rest : List UInt8) :
    lenient (q :: rest) = String.singleton (Char.ofNat q.toNat) ++ lenient rest := by
  rw [← String.toList_inj, String.toList_append, lenient, lenient, pieces_cons, next_of_ascii hq]
  simp [Piece.shown]

/-- A text may be cut in front of an ASCII character. -/
theorem lenient_append {q : UInt8} (hq : q < 0x80) (bytes rest : List UInt8) :
    lenient (bytes ++ q :: rest) = lenient bytes ++ lenient (q :: rest) := by
  have key : (pieces (bytes ++ q :: rest)).map Piece.shown =
      (pieces bytes).map Piece.shown ++ (pieces (q :: rest)).map Piece.shown := by
    induction hn : bytes.length using Nat.strongRecOn generalizing bytes with
    | ind n ih =>
      subst hn
      cases bytes with
      | nil => rw [pieces_nil]; rfl
      | cons b bytes =>
        obtain ⟨hshown, hrest⟩ := next_append hq rest b bytes
        have hlt : (next b bytes).2.length < (b :: bytes).length :=
          Nat.lt_succ_of_le (next_length b bytes)
        rw [List.cons_append, pieces_cons, pieces_cons b bytes, List.map_cons, List.map_cons, hshown,
          hrest, ih _ hlt _ rfl, List.cons_append]
  rw [lenient, key, String.ofList_append]
  rfl

theorem tails_suffix (owed : Nat) (low high : UInt8) (code seen : Nat) (bytes : List UInt8) :
    (tails owed low high code seen bytes).2 <:+ bytes := by
  induction bytes generalizing owed low high code seen with
  | nil => cases owed <;> exact List.suffix_refl []
  | cons b rest ih =>
    cases owed with
    | zero => exact List.suffix_refl _
    | succ owed =>
      rw [tails]
      split
      · exact (ih ..).trans (List.suffix_cons b rest)
      · exact List.suffix_refl _

theorem next_suffix (b : UInt8) (rest : List UInt8) : (next b rest).2 <:+ rest := by
  unfold next
  split
  · exact List.suffix_refl _
  · exact tails_suffix ..

/-- An ASCII character is in the text of some bytes only if its byte is among them. -/
theorem mem_of_mem_lenient {q : UInt8} (hq : q < 0x80) {bytes : List UInt8}
    (h : Char.ofNat q.toNat ∈ (lenient bytes).toList) : q ∈ bytes := by
  rw [lenient, String.toList_ofList] at h
  induction hn : bytes.length using Nat.strongRecOn generalizing bytes with
  | ind n ih =>
    subst hn
    cases bytes with
    | nil => rw [pieces_nil] at h; cases h
    | cons b bytes =>
      have hlt : (next b bytes).2.length < (b :: bytes).length :=
        Nat.lt_succ_of_le (next_length b bytes)
      rw [pieces_cons, List.map_cons, List.mem_cons] at h
      rcases h with hshown | hrest
      · obtain ⟨after, hnext⟩ : ∃ after, next b bytes = (.char (Char.ofNat q.toNat), after) := by
          have hne : Char.ofNat q.toNat ≠ '\uFFFD' := fun he => by
            have hnat := congrArg Char.toNat he
            rw [Source.toNat_char] at hnat
            exact absurd hq (by rw [UInt8.lt_iff_toNat_lt, hnat]; decide)
          revert hshown
          cases hp : next b bytes with
          | mk piece after =>
            cases piece with
            | char c => rintro rfl; exact ⟨after, rfl⟩
            | invalid size => exact fun he => absurd he hne
            | cutOff => exact fun he => absurd he hne
        have hfirst := (eq_encodeChar_of_next hnext).trans
          (next_eq_char_iff.1 (next_of_ascii hq after)).symm
        rw [(List.cons_eq_cons.1 hfirst).1]
        exact List.mem_cons_self
      · exact List.mem_cons_of_mem b ((next_suffix b bytes).subset (ih _ hlt hrest rfl))

end Lox.Utf8
