/-
The items of a source share out its bytes with the blanks between them, in
order and with no byte lost (`Laid`, `Tiling`), each of them is what stands at
its place (`Found.Fits`), and the calls of a cursor give them one after the
other and nothing after the end (`items_tile`).
-/
import Lox.Source.Items
import Lox.Proofs.Source.Lexemes

namespace Lox.Source

/-! ## Item by item -/

namespace Cursor

/-- The item that a piece at this place is, if it is one. -/
def item? (c : Cursor) (p : Cut) : Option Item :=
  match p.piece with
  | .blank => none
  | .token kind => some ⟨c.offset, (c.past p).offset,
      .token ⟨kind, Utf8.lenient p.taken, (c.past p).line⟩⟩
  | .fault f => some ⟨c.offset, (c.past p).offset, .fault (c.past p).line f⟩

theorem itemsAfter_none {c : Cursor} (h : c.next? = none) (found : List Item) :
    c.itemsAfter found = found.reverse := by
  rw [itemsAfter]
  split
  · rfl
  next h' => rw [h] at h'; cases h'

theorem itemsAfter_some {c past : Cursor} {i : Item} (h : c.next? = some (i, past))
    (found : List Item) : c.itemsAfter found = past.itemsAfter (i :: found) := by
  rw [itemsAfter]
  split
  next h' => rw [h] at h'; cases h'
  next h' => rw [h] at h'; cases h'; rfl

theorem itemsAfter_eq (found : List Item) (c : Cursor) :
    c.itemsAfter found = found.reverse ++ c.itemsAfter [] := by
  induction hn : c.weight using Nat.strongRecOn generalizing c found with
  | ind n ih =>
    subst hn
    cases h : c.next? with
    | none => rw [itemsAfter_none h, itemsAfter_none h]; simp
    | some p =>
      obtain ⟨i, past⟩ := p
      rw [itemsAfter_some h, itemsAfter_some h, ih _ (next?_weight h) (i :: found) past rfl,
        ih _ (next?_weight h) [i] past rfl]
      simp

/-- One item behind the other. -/
theorem itemsAfter_next (c : Cursor) :
    c.itemsAfter [] = (c.next?.map fun p => p.1 :: p.2.itemsAfter []).getD [] := by
  cases h : c.next? with
  | none => exact itemsAfter_none h []
  | some p => rw [itemsAfter_some h, itemsAfter_eq]; rfl

theorem itemsAfter_end {c : Cursor} (h : c.rest = []) (he : c.ended = false) :
    c.itemsAfter [] = [⟨c.offset, c.offset, .token (.eof c.line)⟩] := by
  obtain ⟨rest, offset, line, ended⟩ := c
  cases h
  cases he
  have hend : (⟨[], offset, line, true⟩ : Cursor).next? = none := by rw [next?]; rfl
  have hlast : (⟨[], offset, line, false⟩ : Cursor).next? =
      some (⟨offset, offset, .token (.eof line)⟩, ⟨[], offset, line, true⟩) := by
    rw [next?]; rfl
  rw [itemsAfter_some hlast, itemsAfter_none hend]
  rfl

theorem itemsAfter_cut {c : Cursor} {b : UInt8} {bytes : List UInt8} (h : c.rest = b :: bytes)
    (he : c.ended = false) : c.itemsAfter [] =
      (c.item? (cut b bytes)).toList ++ (c.past (cut b bytes)).itemsAfter [] := by
  obtain ⟨rest, offset, line, ended⟩ := c
  cases h
  cases he
  rw [itemsAfter_next, next?]
  simp only [Bool.false_eq_true, if_false]
  cases hp : (cut b bytes).piece with
  | blank => simp only [item?, hp]; exact (itemsAfter_next _).symm
  | token kind => simp only [item?, hp]; rfl
  | fault f => simp only [item?, hp]; rfl

/-- What the call number `n` for the next item gives, from 0 on. -/
def call (c : Cursor) : Nat → Option Item
  | 0 => c.next?.map Prod.fst
  | n + 1 => (c.next?.elim c Prod.snd).call n

/-- The calls give the items, one after the other, and nothing when they are at an end. -/
theorem call_eq (c : Cursor) (n : Nat) : c.call n = (c.itemsAfter [])[n]? := by
  induction n generalizing c with
  | zero => cases h : c.next? <;> simp [call, itemsAfter_next c, h]
  | succ n ih =>
    rw [call, ih]
    cases h : c.next? with
    | none => simp [itemsAfter_next c, h]
    | some p => simp [itemsAfter_next c, h]

end Cursor

/-! ## What an item is -/

/-- What is found on the bytes `w` with `after` behind them: what the piece there has to be, and the
text of a token. -/
def Found.Fits (w after : List UInt8) : Found → Prop
  | .token t => Piece.Fits w after (.token t.kind) ∧ t.lexeme = Utf8.lenient w
  | .fault _ f => Piece.Fits w after (.fault f)

/-- No lexeme is the end of a program. -/
theorem Lexeme.ne_eof {kind : TokenKind} {w : List UInt8} (h : Lexeme kind w) : kind ≠ .eof := by
  cases h <;> exact TokenKind.noConfusion

/-- Items and blanks that share out `ahead`, the rest of a source with `behind` before it. -/
inductive Laid : List UInt8 → List UInt8 → List Item → Prop
  | done {behind : List UInt8} : Laid behind [] []
  | blank {behind w after : List UInt8} {is : List Item} : w ≠ [] → Piece.Fits w after .blank →
    Laid (behind ++ w) after is → Laid behind (w ++ after) is
  | item {behind w after : List UInt8} {found : Found} {is : List Item} : w ≠ [] →
    found.Fits w after → found.line = 1 + (behind ++ w).count lineFeed →
    Laid (behind ++ w) after is →
    Laid behind (w ++ after) (⟨behind.length, (behind ++ w).length, found⟩ :: is)

/-- The items of a place are laid out over the bytes ahead, and the end stands behind them. -/
theorem Cursor.laid {c : Cursor} {behind : List UInt8} (he : c.ended = false)
    (ho : c.offset = behind.length) (hl : c.line = 1 + behind.count lineFeed) :
    ∃ found, Laid behind c.rest found ∧ c.itemsAfter [] = found ++
      [⟨(behind ++ c.rest).length, (behind ++ c.rest).length,
        .token (.eof (1 + (behind ++ c.rest).count lineFeed))⟩] := by
  induction hn : c.rest.length using Nat.strongRecOn generalizing c behind with
  | ind n ih =>
    subst hn
    cases hr : c.rest with
    | nil => exact ⟨[], .done, by rw [itemsAfter_end hr he, ho, hl, List.append_nil]; rfl⟩
    | cons b bytes =>
      have hcut := taken_append_rest b bytes
      have hne := taken_ne_nil b bytes
      have hfits := cut_fits b bytes
      have ho' : (c.past (cut b bytes)).offset = (behind ++ (cut b bytes).taken).length := by
        rw [List.length_append, ← ho]; rfl
      have hl' : (c.past (cut b bytes)).line =
          1 + (behind ++ (cut b bytes).taken).count lineFeed := by
        rw [List.count_append, ← Nat.add_assoc, ← hl]; rfl
      obtain ⟨found, hlaid, heq⟩ := ih (cut b bytes).rest.length
        (by rw [hr]; exact rest_length_lt b bytes) (c := c.past (cut b bytes)) he ho' hl' rfl
      have hwhole : behind ++ (cut b bytes).taken ++ (cut b bytes).rest = behind ++ b :: bytes := by
        rw [List.append_assoc, hcut]
      rw [show (c.past (cut b bytes)).rest = (cut b bytes).rest from rfl, hwhole] at heq
      have lay (f : Found) (hf : f.Fits (cut b bytes).taken (cut b bytes).rest)
          (hline : f.line = (c.past (cut b bytes)).line) :
          Laid behind ((cut b bytes).taken ++ (cut b bytes).rest)
            (⟨behind.length, (behind ++ (cut b bytes).taken).length, f⟩ :: found) :=
        .item hne hf (hline.trans hl') hlaid
      rw [itemsAfter_cut hr he, heq, ← hcut]
      cases hp : (cut b bytes).piece with
      | blank =>
        simp only [item?, hp]
        exact ⟨found, .blank hne (hp ▸ hfits) hlaid, rfl⟩
      | token kind =>
        rw [hp] at hfits
        simp only [item?, hp]
        rw [ho, ho']
        exact ⟨_, lay (.token ⟨kind, _, _⟩) ⟨hfits, rfl⟩ rfl, rfl⟩
      | fault f =>
        rw [hp] at hfits
        simp only [item?, hp]
        rw [ho, ho']
        exact ⟨_, lay (.fault _ f) hfits rfl, rfl⟩

/-! ## Items over a source -/

/-- The bytes `w` stand in a source from `start` up to `stop`, with `after` behind them. -/
structure Stands (source w after : List UInt8) (start stop : Nat) : Prop where
  split : ∃ before, source = before ++ w ++ after ∧ before.length = start
  length : start + w.length = stop

/-- Items that lie in a source one behind the other, each what its bytes make it, with nothing but
blanks between them. -/
structure Tiling (source : List UInt8) (is : List Item) : Prop where
  within : ∀ i ∈ is, i.start < i.stop ∧ i.stop ≤ source.length
  ordered : is.Pairwise fun i j => i.stop ≤ j.start
  fits : ∀ i ∈ is, ∃ w after, Stands source w after i.start i.stop ∧ i.found.Fits w after
  lines : ∀ i ∈ is, i.found.line = 1 + (source.take i.stop).count lineFeed
  /-- A byte outside the items is in a blank, and the whole blank is outside them. -/
  covered : ∀ p < source.length, (∀ i ∈ is, ¬ (i.start ≤ p ∧ p < i.stop)) →
    ∃ w after start stop, Stands source w after start stop ∧ start ≤ p ∧ p < stop ∧
      Piece.Fits w after .blank ∧ ∀ i ∈ is, i.stop ≤ start ∨ stop ≤ i.start

theorem stands (behind w after : List UInt8) :
    Stands (behind ++ (w ++ after)) w after behind.length (behind ++ w).length :=
  ⟨⟨behind, by rw [List.append_assoc], rfl⟩, List.length_append.symm⟩

namespace Laid

variable {behind ahead : List UInt8} {is : List Item}

theorem within (h : Laid behind ahead is) : ∀ i ∈ is,
    behind.length ≤ i.start ∧ i.start < i.stop ∧ i.stop ≤ (behind ++ ahead).length := by
  induction h with
  | done => exact List.forall_mem_nil _
  | blank _ _ _ ih =>
    intro i hi
    have := ih i hi
    simp only [List.length_append] at this ⊢
    omega
  | item hne _ _ _ ih =>
    have := List.length_pos_iff.2 hne
    refine List.forall_mem_cons.2 ⟨?_, fun i hi => ?_⟩
    · simp only [List.length_append]
      omega
    · have := ih i hi
      simp only [List.length_append] at this ⊢
      omega

theorem ordered (h : Laid behind ahead is) : is.Pairwise fun i j => i.stop ≤ j.start := by
  induction h with
  | done => exact .nil
  | blank _ _ _ ih => exact ih
  | item _ _ _ hlaid ih => exact .cons (fun j hj => (hlaid.within j hj).1) ih

theorem fits (h : Laid behind ahead is) : ∀ i ∈ is, ∃ w after,
    Stands (behind ++ ahead) w after i.start i.stop ∧ i.found.Fits w after := by
  induction h with
  | done => exact List.forall_mem_nil _
  | blank _ _ _ ih => rwa [List.append_assoc] at ih
  | @item behind w after found is hne hfits _ _ ih =>
    rw [List.append_assoc] at ih
    exact List.forall_mem_cons.2 ⟨⟨w, after, stands behind w after, hfits⟩, ih⟩

theorem lines (h : Laid behind ahead is) : ∀ i ∈ is,
    i.found.line = 1 + ((behind ++ ahead).take i.stop).count lineFeed := by
  induction h with
  | done => exact List.forall_mem_nil _
  | blank _ _ _ ih => rwa [List.append_assoc] at ih
  | @item behind w after found is hne _ hline _ ih =>
    rw [List.append_assoc] at ih
    refine List.forall_mem_cons.2 ⟨?_, ih⟩
    rw [← List.append_assoc, List.take_left]
    exact hline

theorem covered (h : Laid behind ahead is) : ∀ p, behind.length ≤ p →
    p < (behind ++ ahead).length → (∀ i ∈ is, ¬ (i.start ≤ p ∧ p < i.stop)) →
    ∃ w after start stop, Stands (behind ++ ahead) w after start stop ∧ behind.length ≤ start ∧
      start ≤ p ∧ p < stop ∧ Piece.Fits w after .blank ∧
      ∀ i ∈ is, i.stop ≤ start ∨ stop ≤ i.start := by
  induction h with
  | done =>
    intro p hp hp'
    rw [List.append_nil] at hp'
    omega
  | @blank behind w after is hne hfits hlaid ih =>
    intro p hp hp' hout
    rw [List.append_assoc] at ih
    by_cases hin : p < (behind ++ w).length
    · exact ⟨w, after, _, _, stands behind w after, Nat.le_refl _, hp, hin, hfits,
        fun i hi => .inr (hlaid.within i hi).1⟩
    · obtain ⟨v, after', start, stop, hst, hle, hrest⟩ := ih p (Nat.le_of_not_lt hin) hp' hout
      refine ⟨v, after', start, stop, hst, Nat.le_trans ?_ hle, hrest⟩
      rw [List.length_append]
      exact Nat.le_add_right ..
  | @item behind w after found is hne _ _ hlaid ih =>
    intro p hp hp' hout
    rw [List.append_assoc] at ih
    obtain ⟨hself, hout⟩ := List.forall_mem_cons.1 hout
    obtain ⟨v, after', start, stop, hst, hle, hp, hp', hfits, hapart⟩ :=
      ih p (Nat.le_of_not_lt fun hin => hself ⟨hp, hin⟩) hp' hout
    refine ⟨v, after', start, stop, hst, Nat.le_trans ?_ hle, hp, hp', hfits,
      List.forall_mem_cons.2 ⟨.inl hle, hapart⟩⟩
    rw [List.length_append]
    exact Nat.le_add_right ..

theorem tiling {source : List UInt8} (h : Laid [] source is) : Tiling source is where
  within i hi := (h.within i hi).2
  ordered := h.ordered
  fits := h.fits
  lines := h.lines
  covered p hp hout :=
    have ⟨w, after, start, stop, hst, _, hp, hp', hfits, hapart⟩ :=
      h.covered p (Nat.zero_le p) hp hout
    ⟨w, after, start, stop, hst, hp, hp', hfits, hapart⟩

end Laid

/-- A source falls into blanks and items, the items come in the order of their bytes, and behind
them comes one end, which nothing follows. -/
theorem items_tile (source : List UInt8) : ∃ found,
    Tiling source found ∧
    (∀ i ∈ found, ∀ t, i.found = .token t → t.kind ≠ .eof) ∧
    items source = found ++ [⟨source.length, source.length,
      .token (.eof (1 + source.count lineFeed))⟩] ∧
    ∀ n, (Cursor.ofBytes source).call n = (items source)[n]? := by
  have hstart : (Cursor.ofBytes source).offset = ([] : List UInt8).length := rfl
  obtain ⟨found, hlaid, hitems⟩ := Cursor.laid rfl hstart rfl
  refine ⟨found, hlaid.tiling, fun i hi t ht => ?_, hitems, fun n => Cursor.call_eq _ n⟩
  obtain ⟨w, after, -, hfits⟩ := hlaid.fits i hi
  rw [ht] at hfits
  exact hfits.1.lexeme.ne_eof

/-! ## Faults -/

/-- The scanner has failed exactly if it has reported an error. -/
theorem scan_failed (bytes : List UInt8) : (scan bytes).failed = true ↔ (scan bytes).errors ≠ [] := by
  simp only [scan, faultsOf, ne_eq, List.filterMap_eq_nil_iff, List.any_eq_true, not_forall]
  refine exists_congr fun i => ?_
  cases i.found <;> simp [Found.isFault]

end Lox.Source
