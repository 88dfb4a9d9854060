/-
Where characters begin. The first byte of a character is no tail byte and all
others are, so a text may be cut in front of any byte that is no tail byte, and
behind any ASCII byte, and each part is the bytes of whole characters
(`split_bytesOf`, `split_bytesOf_ascii`). The strict reader takes just the bytes
of texts (`strict_eq_ok_iff`).
-/
import Lox.Proofs.Text.Encode

namespace Lox.Utf8

open Source (isTail isTail_iff)

/-- The bytes of characters. -/
def bytesOf (cs : List Char) : List UInt8 := cs.flatMap String.utf8EncodeChar

@[simp] theorem bytesOf_nil : bytesOf [] = [] := rfl

@[simp] theorem bytesOf_cons (c : Char) (cs : List Char) :
    bytesOf (c :: cs) = String.utf8EncodeChar c ++ bytesOf cs := rfl

@[simp] theorem bytesOf_append (cs ds : List Char) :
    bytesOf (cs ++ ds) = bytesOf cs ++ bytesOf ds := List.flatMap_append

theorem encode_eq_bytesOf (text : String) : encode text = bytesOf text.toList := encode_eq text

theorem encode_ofList (cs : List Char) : encode (String.ofList cs) = bytesOf cs := by
  rw [encode_eq_bytesOf, String.toList_ofList]

/-! ## Bytes of a character -/

/-- The first byte of a character is no tail byte, the others are. -/
theorem encodeChar_eq_cons (c : Char) : ∃ b tail, String.utf8EncodeChar c = b :: tail ∧
    isTail b = false ∧ ∀ t ∈ tail, isTail t = true := by
  have hvalid : c.toNat.isValidChar := c.valid
  rw [Nat.isValidChar] at hvalid
  have first {n : Nat} (h : n < 0x80 ∨ 0xC0 ≤ n ∧ n < 0x100) : isTail (UInt8.ofNat n) = false := by
    rw [Bool.eq_false_iff, ne_eq, isTail_iff, UInt8.le_iff_toNat_le, UInt8.le_iff_toNat_le,
      toNat_ofNat (by omega)]
    simp only [UInt8.reduceToNat]
    omega
  have later (n : Nat) : isTail (UInt8.ofNat (n % 0x40 + 0x80)) = true := by
    rw [isTail_iff, UInt8.le_iff_toNat_le, UInt8.le_iff_toNat_le, toNat_ofNat (by omega)]
    simp only [UInt8.reduceToNat]
    omega
  simp only [String.utf8EncodeChar, Char.toNat_val]
  split
  · exact ⟨_, _, rfl, first (by omega), List.forall_mem_nil _⟩
  split
  · exact ⟨_, _, rfl, first (by omega), List.forall_mem_singleton.2 (later _)⟩
  split
  · refine ⟨_, _, rfl, first (by omega), List.forall_mem_cons.2 ⟨later _, ?_⟩⟩
    exact List.forall_mem_singleton.2 (later _)
  · refine ⟨_, _, rfl, first (by omega), List.forall_mem_cons.2 ⟨later _, ?_⟩⟩
    exact List.forall_mem_cons.2 ⟨later _, List.forall_mem_singleton.2 (later _)⟩

/-- A character that begins with an ASCII byte is that byte. -/
theorem encodeChar_of_ascii {q : UInt8} (hq : q < 0x80) {c : Char}
    (h : q ∈ String.utf8EncodeChar c) : String.utf8EncodeChar c = [q] := by
  have hchar := next_eq_char_iff.1 (next_of_ascii hq [])
  rw [eq_of_mem_encodeChar hq h]
  simpa using hchar.symm

theorem isTail_of_ascii {q : UInt8} (hq : q < 0x80) : isTail q = false := by
  rw [Bool.eq_false_iff, ne_eq, isTail_iff]
  exact fun h => absurd (UInt8.lt_of_le_of_lt h.1 hq) (UInt8.lt_irrefl _)

/-! ## Cutting a text -/

/-- In front of a byte that is no tail byte a character ends. -/
theorem split_bytesOf {cs : List Char} {w after : List UInt8} (h : bytesOf cs = w ++ after)
    (ha : ∀ b ∈ after.head?, isTail b = false) :
    ∃ ds es, cs = ds ++ es ∧ w = bytesOf ds ∧ after = bytesOf es := by
  induction cs generalizing w with
  | nil =>
    obtain ⟨rfl, rfl⟩ := List.append_eq_nil_iff.1 h.symm
    exact ⟨[], [], rfl, rfl, rfl⟩
  | cons c cs ih =>
    cases w with
    | nil => exact ⟨[], c :: cs, rfl, rfl, h.symm⟩
    | cons b w =>
      obtain ⟨b', tail, hc, -, htail⟩ := encodeChar_eq_cons c
      rw [bytesOf_cons, hc] at h
      obtain ⟨rfl, hbehind⟩ := List.cons.inj h
      rcases List.append_eq_append_iff.1 hbehind with ⟨u, rfl, hrest⟩ | ⟨u, rfl, rfl⟩
      · obtain ⟨ds, es, rfl, rfl, rfl⟩ := ih hrest
        exact ⟨c :: ds, es, rfl, by rw [bytesOf_cons, hc]; rfl, rfl⟩
      · cases u with
        | nil => exact ⟨[c], cs, rfl, by simp [hc], rfl⟩
        | cons t u =>
          -- the cut would be inside the character
          have := ha t rfl
          rw [htail t (List.mem_append_right _ (List.mem_cons_self ..))] at this
          cases this

/-- Behind an ASCII byte a character ends. -/
theorem split_bytesOf_ascii {cs : List Char} {u after : List UInt8} {q : UInt8} (hq : q < 0x80)
    (h : bytesOf cs = u ++ q :: after) :
    ∃ ds es, cs = ds ++ es ∧ u ++ [q] = bytesOf ds ∧ after = bytesOf es := by
  obtain ⟨ds, es, rfl, rfl, hes⟩ := split_bytesOf h (by
    rintro _ ⟨⟩
    exact isTail_of_ascii hq)
  cases es with
  | nil => cases hes
  | cons c es =>
    obtain ⟨b, tail, hc, -, -⟩ := encodeChar_eq_cons c
    have hb : q = b := by
      rw [bytesOf_cons, hc] at hes
      exact (List.cons.inj hes).1
    have hone : String.utf8EncodeChar c = [q] :=
      encodeChar_of_ascii hq (by rw [hc, hb]; exact List.mem_cons_self ..)
    rw [bytesOf_cons, hone] at hes
    exact ⟨ds ++ [c], es, by simp, by simp [hone], (List.cons.inj hes).2⟩

/-- A first byte with nothing but tail bytes behind it belongs to one character. -/
theorem eq_singleton_of_tails {cs : List Char} (hne : cs ≠ [])
    (h : ∀ t ∈ (bytesOf cs).tail, isTail t = true) : ∃ c, cs = [c] := by
  obtain ⟨c, cs, rfl⟩ := List.exists_cons_of_ne_nil hne
  cases cs with
  | nil => exact ⟨c, rfl⟩
  | cons d cs =>
    obtain ⟨b, tail, hc, -, -⟩ := encodeChar_eq_cons c
    obtain ⟨b', tail', hd, hb', -⟩ := encodeChar_eq_cons d
    rw [bytesOf_cons, bytesOf_cons, hc, hd] at h
    have := h b' (List.mem_append_right _ (List.mem_cons_self ..))
    rw [hb'] at this
    cases this

/-- Two places where characters begin are no nearer to each other than the character between. -/
theorem eq_of_between {before before' after after' : List Char} {c c' : Char}
    (h : before ++ c :: after = before' ++ c' :: after')
    (hle : (bytesOf before).length ≤ (bytesOf before').length)
    (hlt : (bytesOf before').length < (bytesOf (before ++ [c])).length) :
    before = before' ∧ c = c' := by
  have hpos (c : Char) : 0 < (String.utf8EncodeChar c).length := by
    obtain ⟨b, tail, hc, -, -⟩ := encodeChar_eq_cons c
    rw [hc]
    exact Nat.succ_pos _
  rcases List.append_eq_append_iff.1 h with ⟨u, rfl, hu⟩ | ⟨u, rfl, hu⟩
  · cases u with
    | nil =>
      rw [List.nil_append] at hu
      exact ⟨(List.append_nil _).symm, (List.cons.inj hu).1⟩
    | cons d u =>
      obtain ⟨rfl, -⟩ := List.cons.inj hu
      simp only [bytesOf_append, bytesOf_cons, bytesOf_nil, List.append_nil, List.length_append] at hlt
      omega
  · cases u with
    | nil =>
      rw [List.nil_append] at hu
      exact ⟨List.append_nil _, (List.cons.inj hu).1.symm⟩
    | cons d u =>
      have := hpos d
      simp only [bytesOf_append, bytesOf_cons, List.length_append] at hle
      omega

/-! ## Strict reading -/

theorem strictAfter_eq_ok {found cs : List Char} {index : Nat} {ps : List Piece}
    (h : strictAfter found index ps = .ok cs) : ∃ ds, ps = ds.map .char ∧ cs = found.reverse ++ ds := by
  induction ps generalizing found index with
  | nil =>
    cases h
    exact ⟨[], rfl, (List.append_nil _).symm⟩
  | cons p ps ih =>
    cases p with
    | char c =>
      obtain ⟨ds, rfl, rfl⟩ := ih h
      exact ⟨c :: ds, rfl, by simp⟩
    | invalid | cutOff => cases h

theorem strictAfter_map_char (found cs : List Char) (index : Nat) :
    strictAfter found index (cs.map .char) = .ok (found.reverse ++ cs) := by
  induction cs generalizing found index with
  | nil => simp [strictAfter]
  | cons c cs ih => simp [strictAfter, ih]

theorem bytesOf_of_pieces {bytes : List UInt8} {cs : List Char} (h : pieces bytes = cs.map .char) :
    bytes = bytesOf cs := by
  induction cs generalizing bytes with
  | nil =>
    cases bytes with
    | nil => rfl
    | cons b rest =>
      rw [pieces_cons] at h
      cases h
  | cons c cs ih =>
    cases bytes with
    | nil =>
      rw [pieces_nil] at h
      cases h
    | cons b rest =>
      rw [pieces_cons, List.map_cons] at h
      obtain ⟨hnext, hrest⟩ := List.cons.inj h
      rw [bytesOf_cons, ← ih hrest]
      exact next_eq_char_iff.1 (Prod.ext hnext rfl)

/-- The strict reader takes the bytes of a text, and takes them for that text. -/
theorem strict_eq_ok_iff {bytes : List UInt8} {text : String} :
    strict bytes = .ok text ↔ bytes = encode text := by
  rw [strict]
  constructor
  · intro h
    cases hs : strictAfter [] 0 (pieces bytes) with
    | error f =>
      rw [hs] at h
      cases h
    | ok cs =>
      rw [hs] at h
      cases h
      obtain ⟨ds, hds, rfl⟩ := strictAfter_eq_ok hs
      rw [encode_ofList]
      exact bytesOf_of_pieces hds
  · rintro rfl
    rw [pieces_encode, strictAfter_map_char]
    exact congrArg Except.ok (String.ofList_toList ..)

end Lox.Utf8
