/-
The spans of binary numbers. No decimal is in the spans of two numbers that floats
can have (`Normal.apart`), and the fewest digits of a number are in its own span
(`Normal.holds_shortest`): they tell it from all others.
-/
import Lox.Decimal.Shortest
import Mathlib.Algebra.Order.Field.Power
import Mathlib.Data.Rat.Cast.Order
import Mathlib.Tactic.Linarith
import Mathlib.Tactic.Positivity
import Mathlib.Tactic.Ring

namespace Lox.Decimal

/-- The pairs that floats have: the bit on top of m is there, except at the bottom of the range. -/
structure Normal (m : Nat) (q : Int) : Prop where
  lt : m < 2 * hiddenBit
  hidden : q ≠ -1074 → hiddenBit ≤ m
  least : -1074 ≤ q
  most : q ≤ 971

/-- A quarter of the last place. -/
def quarter (q : Int) : ℚ := 2 ^ (q - 2)

theorem quarter_pos (q : Int) : 0 < quarter q := zpow_pos (by norm_num) _

/-- The number is between the bounds of the span, in quarters of the last place. -/
def Span.Holds (s : Span) (q : Int) (v : ℚ) : Prop :=
  if s.closed then s.low * quarter q ≤ v ∧ v ≤ s.high * quarter q
  else s.low * quarter q < v ∧ v < s.high * quarter q

/-! ## Spans are apart -/

section

variable {m m' : Nat} {q q' : Int} {v : ℚ}

theorem Span.Holds.le (h : (Span.of m q).Holds q v) :
    (Span.of m q).low * quarter q ≤ v ∧ v ≤ (Span.of m q).high * quarter q := by
  unfold Holds at h
  split at h
  · exact h
  · exact ⟨h.1.le, h.2.le⟩

/-- A bound rounds to the number with the even m. -/
theorem Span.Holds.even (h : (Span.of m q).Holds q v)
    (hv : v = (Span.of m q).low * quarter q ∨ v = (Span.of m q).high * quarter q) : m % 2 = 0 := by
  unfold Holds at h
  split at h
  next hc => exact beq_iff_eq.1 hc
  next =>
    rcases hv with rfl | rfl
    · exact absurd h.1 (lt_irrefl _)
    · exact absurd h.2 (lt_irrefl _)

theorem Span.high_of (m : Nat) (q : Int) : (Span.of m q).high = 4 * m + 2 := rfl

theorem Span.low_of_cases (m : Nat) (q : Int) :
    (Span.of m q).low = 4 * m - 2 ∨
      (Span.of m q).low = 4 * m - 1 ∧ m = hiddenBit ∧ q ≠ -1074 := by
  unfold Span.of
  dsimp only
  split
  next h => exact .inr ⟨rfl, h⟩
  next => exact .inl rfl

/-- The span of a number ends where that of the next one with the same exponent begins. -/
theorem Span.not_holds_of_lt (hm : m < m') (h : (Span.of m q).Holds q v) :
    ¬ (Span.of m' q).Holds q v := by
  intro h'
  have hbounds : (Span.of m q).high ≤ (Span.of m' q).low := by
    rw [Span.high_of]
    rcases Span.low_of_cases m' q with hl | ⟨hl, -⟩ <;> omega
  have hscaled : ((Span.of m q).high : ℚ) * quarter q ≤ (Span.of m' q).low * quarter q :=
    mul_le_mul_of_nonneg_right (by exact_mod_cast hbounds) (quarter_pos q).le
  have hhigh : v = (Span.of m q).high * quarter q := le_antisymm h.le.2 (hscaled.trans h'.le.1)
  have hlow : v = (Span.of m' q).low * quarter q := le_antisymm (h.le.2.trans hscaled) h'.le.1
  -- Both spans have the bound only if both numbers are even, but they are neighbours.
  have heven := h.even (.inr hhigh)
  have heven' := h'.even (.inl hlow)
  have heq : (Span.of m q).high = (Span.of m' q).low := by
    have := mul_right_cancel₀ (quarter_pos q).ne' (hhigh.symm.trans hlow)
    exact_mod_cast this
  rw [Span.high_of] at heq
  rcases Span.low_of_cases m' q with hl | ⟨hl, -⟩ <;> omega

theorem two_quarter_le (hq : q < q') : 2 * quarter q ≤ quarter q' := by
  have hstep : 2 * quarter q = quarter (q + 1) := by
    rw [quarter, quarter, ← zpow_one_add₀ (by norm_num)]
    congr 1
    omega
  rw [hstep]
  exact zpow_le_zpow_right₀ (by norm_num) (by omega)

/-- The span of a number ends before that of any number with a larger exponent begins. -/
theorem Normal.not_holds_of_lt (hn : Normal m q) (hn' : Normal m' q') (hq : q < q')
    (h : (Span.of m q).Holds q v) : ¬ (Span.of m' q').Holds q' v := by
  intro h'
  have hbit : hiddenBit = 4503599627370496 := by decide
  have hleast := hn.least
  have hm := hn.lt
  have hm' := hn'.hidden (by omega)
  have hhigh : (Span.of m q).high ≤ 8 * hiddenBit - 2 := by rw [Span.high_of]; omega
  have hlow : 8 * hiddenBit - 2 ≤ (Span.of m' q').low * 2 := by
    rcases Span.low_of_cases m' q' with hl | ⟨hl, hbit', -⟩
    · have : m' ≠ hiddenBit := by
        rintro rfl
        have hlow : (Span.of hiddenBit q').low = 4 * hiddenBit - 1 := if_pos ⟨rfl, by omega⟩
        omega
      omega
    · omega
  have hu := (quarter_pos q).le
  have hends : ((Span.of m q).high : ℚ) * quarter q ≤ ((8 * hiddenBit - 2 : Nat) : ℚ) * quarter q :=
    mul_le_mul_of_nonneg_right (by exact_mod_cast hhigh) hu
  have hbegins : ((8 * hiddenBit - 2 : Nat) : ℚ) * quarter q ≤ (Span.of m' q').low * quarter q' :=
    calc ((8 * hiddenBit - 2 : Nat) : ℚ) * quarter q
        ≤ (((Span.of m' q').low * 2 : Nat) : ℚ) * quarter q :=
          mul_le_mul_of_nonneg_right (by exact_mod_cast hlow) hu
      _ = (Span.of m' q').low * (2 * quarter q) := by push_cast; ring
      _ ≤ (Span.of m' q').low * quarter q' :=
          mul_le_mul_of_nonneg_left (two_quarter_le hq) (Nat.cast_nonneg _)
  have hv : v = (Span.of m q).high * quarter q :=
    le_antisymm h.le.2 (hends.trans (hbegins.trans h'.le.1))
  -- Only the largest m can reach the bound, but that is odd.
  have heven := h.even (.inr hv)
  have heq : ((Span.of m q).high : ℚ) * quarter q = ((8 * hiddenBit - 2 : Nat) : ℚ) * quarter q :=
    le_antisymm hends (hbegins.trans (h'.le.1.trans hv.le))
  have htop : (Span.of m q).high = 8 * hiddenBit - 2 := by
    exact_mod_cast mul_right_cancel₀ (quarter_pos q).ne' heq
  rw [Span.high_of] at htop
  omega

/-- No number is in the spans of two floats. -/
theorem Normal.apart (hn : Normal m q) (hn' : Normal m' q') (h : (Span.of m q).Holds q v)
    (h' : (Span.of m' q').Holds q' v) : m = m' ∧ q = q' := by
  rcases lt_trichotomy q q' with hq | rfl | hq
  · exact absurd h' (hn.not_holds_of_lt hn' hq h)
  · rcases Nat.lt_trichotomy m m' with hm | rfl | hm
    · exact absurd h' (Span.not_holds_of_lt hm h)
    · exact ⟨rfl, rfl⟩
    · exact absurd h (Span.not_holds_of_lt hm h')
  · exact absurd h (hn'.not_holds_of_lt hn hq h')

end

/-! ## Grids -/

theorem zpow_mul_pow_toNat {b : ℚ} (hb : b ≠ 0) (k : Int) :
    b ^ k * b ^ (-k).toNat = b ^ k.toNat := by
  rw [← zpow_natCast, ← zpow_natCast, ← zpow_add₀ hb]
  congr 1
  omega

/-- The unit in which spans and grids are compared. -/
def gridUnit (q k : Int) : ℚ := 2 ^ (2 - q).toNat * 10 ^ (-k).toNat

theorem gridUnit_pos (q k : Int) : 0 < gridUnit q k := by
  unfold gridUnit
  positivity

theorem cast_scale (q k : Int) : (Span.scale q k : ℚ) = quarter q * gridUnit q k := by
  have h := zpow_mul_pow_toNat (b := 2) (by norm_num) (q - 2)
  rw [neg_sub] at h
  rw [Span.scale, gridUnit, quarter, ← mul_assoc, h, Nat.pow_eq, Nat.pow_eq]
  push_cast
  rfl

theorem cast_grid (q k : Int) : (Span.grid q k : ℚ) = 10 ^ k * gridUnit q k := by
  have h := zpow_mul_pow_toNat (b := 10) (by norm_num) k
  rw [Span.grid, gridUnit, mul_left_comm, h, Nat.pow_eq, Nat.pow_eq]
  push_cast
  rfl

/-- What the comparison of whole numbers says of the decimal. -/
theorem Span.has_iff {s : Span} {q k : Int} {d : Nat} :
    s.has q k d = true ↔ s.Holds q (d * 10 ^ k) := by
  have hu := gridUnit_pos q k
  have hle (a b c e : Nat) (x y : ℚ) (hx : (b : ℚ) = x * gridUnit q k)
      (hy : (e : ℚ) = y * gridUnit q k) :
      (a * b ≤ c * e ↔ (a : ℚ) * x ≤ c * y) ∧ (a * b < c * e ↔ (a : ℚ) * x < c * y) := by
    rw [← @Nat.cast_le ℚ, ← @Nat.cast_lt ℚ]
    push_cast
    rw [hx, hy, ← mul_assoc, ← mul_assoc, mul_le_mul_iff_left₀ hu, mul_lt_mul_iff_left₀ hu]
    exact ⟨Iff.rfl, Iff.rfl⟩
  have hlow := hle s.low _ d _ _ _ (cast_scale q k) (cast_grid q k)
  have hhigh := hle d _ s.high _ _ _ (cast_grid q k) (cast_scale q k)
  unfold has Holds
  dsimp only
  split
  · rw [Bool.and_eq_true, decide_eq_true_iff, decide_eq_true_iff, hlow.1, hhigh.1]
  · rw [Bool.and_eq_true, decide_eq_true_iff, decide_eq_true_iff, hlow.2, hhigh.2]

variable {tie : Tie} {q k : Int} {d : Nat}

/-- The neighbour that is taken is in the span. -/
theorem Span.has_of_nearest? {s : Span} (h : s.nearest? tie q k = some d) :
    s.has q k d = true := by
  have hpick (n : Nat) : tie.pick n = n ∨ tie.pick n = n + 1 := by
    cases tie with
    | up => exact .inr rfl
    | even =>
      unfold Tie.pick
      dsimp only
      split
      · exact .inl rfl
      · exact .inr rfl
  unfold nearest? at h
  dsimp only at h
  split at h
  next hbelow habove =>
    cases h
    split
    · exact hbelow
    · split
      · exact habove
      · rcases hpick (s.below q k) with hp | hp <;> rw [hp] <;> assumption
  next hbelow _ => cases h; exact hbelow
  next _ habove => cases h; exact habove
  next => cases h

/-- A neighbour is taken if there is one. -/
theorem Span.nearest?_isSome {s : Span} (h : s.has q k (s.below q k) = true) :
    (s.nearest? tie q k).isSome = true := by
  unfold nearest?
  dsimp only
  rw [h]
  split <;> first | rfl | simp_all

/-- The first grid with a point in the span is found, if there is one. -/
theorem Span.has_descend {s : Span} (tie : Tie) : ∀ (n : Nat) (k : Int),
    (∃ i < n, s.has q (k - i) (s.below q (k - i)) = true) →
      s.has q (s.descend tie q n k).exponent (s.descend tie q n k).digits = true
  | 0, _, ⟨_, hi, _⟩ => absurd hi (Nat.not_lt_zero _)
  | n + 1, k, ⟨i, hi, h⟩ => by
    rw [descend]
    split
    next d hd => exact has_of_nearest? hd
    next hnone =>
      cases i with
      | zero =>
        have hsome : (s.nearest? tie q (k - (0 : Nat))).isSome = true := nearest?_isSome h
        rw [Int.natCast_zero, Int.sub_zero, hnone] at hsome
        cases hsome
      | succ i =>
        refine has_descend tie n (k - 1) ⟨i, Nat.lt_of_succ_lt_succ hi, ?_⟩
        rwa [show k - 1 - (i : Int) = k - ((i + 1 : Nat) : Int) by omega]

/-- The multiple below the middle is in the span if the grid is fine enough. -/
theorem Span.has_below {m : Nat} (hm : m ≠ 0) (hk : (10 : ℚ) ^ k ≤ quarter q) :
    (Span.of m q).has q k ((Span.of m q).below q k) = true := by
  have hfine : Span.grid q k ≤ Span.scale q k := by
    rw [← @Nat.cast_le ℚ, cast_scale, cast_grid]
    exact mul_le_mul_of_nonneg_right hk (gridUnit_pos q k).le
  have hscale : 0 < Span.scale q k := Nat.mul_pos (Nat.pow_pos (by decide)) (Nat.pow_pos (by decide))
  have hgrid : 0 < Span.grid q k := Nat.mul_pos (Nat.pow_pos (by decide)) (Nat.pow_pos (by decide))
  have hbelow : (Span.of m q).below q k * Span.grid q k ≤ 4 * m * Span.scale q k :=
    Nat.div_mul_le_self _ _
  have habove : 4 * m * Span.scale q k < (Span.of m q).below q k * Span.grid q k + Span.grid q k :=
    Nat.lt_div_mul_add hgrid
  have hlow : (Span.of m q).low * Span.scale q k + Span.scale q k ≤ 4 * m * Span.scale q k := by
    rw [← Nat.succ_mul]
    refine Nat.mul_le_mul_right _ ?_
    rcases Span.low_of_cases m q with hl | ⟨hl, -⟩ <;> omega
  have hhigh : 4 * m * Span.scale q k < (Span.of m q).high * Span.scale q k :=
    Nat.mul_lt_mul_of_pos_right (by rw [Span.high_of]; omega) hscale
  unfold has
  dsimp only
  split <;> simp only [Bool.and_eq_true, decide_eq_true_iff] <;> omega

/-! ## Powers of two and of ten -/

/-- Three decimal places are at most ten binary ones. -/
theorem ten_pow_le {n e : Nat} (h : 10 * e ≤ 3 * n + 40) : 10 ^ e ≤ 2 ^ n * 10 ^ 4 := by
  refine (Nat.pow_le_pow_iff_left (n := 10) (by decide)).1 ?_
  calc (10 ^ e) ^ 10 = 10 ^ (10 * e) := by rw [← pow_mul, mul_comm]
    _ ≤ 10 ^ (3 * n + 40) := Nat.pow_le_pow_right (by decide) h
    _ = (10 ^ 3) ^ n * 10 ^ 40 := by rw [pow_add, pow_mul]
    _ ≤ (2 ^ 10) ^ n * 10 ^ 40 := Nat.mul_le_mul_right _ (Nat.pow_le_pow_left (by decide) n)
    _ = (2 ^ n * 10 ^ 4) ^ 10 := by rw [mul_pow, ← pow_mul, ← pow_mul, ← pow_mul, mul_comm n]

/-- Ninety-three binary places are at most twenty-eight decimal ones. -/
theorem two_pow_le {n f : Nat} (h : 28 * n ≤ 93 * (f + 4)) : 2 ^ n ≤ 10 ^ (f + 4) := by
  refine (Nat.pow_le_pow_iff_left (n := 93) (by decide)).1 ?_
  calc (2 ^ n) ^ 93 = (2 ^ 93) ^ n := by rw [← pow_mul, ← pow_mul, mul_comm]
    _ ≤ (10 ^ 28) ^ n := Nat.pow_le_pow_left (by decide) n
    _ = 10 ^ (28 * n) := by rw [← pow_mul]
    _ ≤ 10 ^ (93 * (f + 4)) := Nat.pow_le_pow_right (by decide) h
    _ = (10 ^ (f + 4)) ^ 93 := by rw [← pow_mul, mul_comm]

/-- The fraction 1233/4096 is near enough to the logarithm of two. -/
theorem ten_zpow_le {a : Int} (hlow : -1074 ≤ a) (hhigh : a ≤ 1023) :
    (10 : ℚ) ^ (a * 1233 / 4096) ≤ 2 ^ a * 10 ^ 4 := by
  rcases Int.lt_or_le a 0 with ha | ha
  · obtain ⟨n, hn⟩ : ∃ n : Nat, a = -n := ⟨(-a).toNat, by omega⟩
    obtain ⟨f, hf⟩ : ∃ f : Nat, a * 1233 / 4096 = -f := ⟨(-(a * 1233 / 4096)).toNat, by omega⟩
    have h : ((2 ^ n : Nat) : ℚ) ≤ ((10 ^ (f + 4) : Nat) : ℚ) :=
      Nat.cast_le.2 (two_pow_le (by omega))
    rw [hf, hn, zpow_neg, zpow_neg, zpow_natCast, zpow_natCast, inv_le_iff_one_le_mul₀ (by positivity)]
    push_cast at h
    rw [pow_add] at h
    calc (1 : ℚ) = (2 ^ n)⁻¹ * 2 ^ n := (inv_mul_cancel₀ (by positivity)).symm
      _ ≤ (2 ^ n)⁻¹ * (10 ^ f * 10 ^ 4) := mul_le_mul_of_nonneg_left h (by positivity)
      _ = (2 ^ n)⁻¹ * 10 ^ 4 * 10 ^ f := by ring
  · obtain ⟨n, hn⟩ : ∃ n : Nat, a = n := ⟨a.toNat, by omega⟩
    obtain ⟨e, he⟩ : ∃ e : Nat, a * 1233 / 4096 = e := ⟨(a * 1233 / 4096).toNat, by omega⟩
    rw [he, hn, zpow_natCast, zpow_natCast]
    exact_mod_cast ten_pow_le (n := n) (e := e) (by omega)

/-- The finest of the two dozen grids is finer than a quarter of the last place. -/
theorem Normal.grid_le {m : Nat} (h : Normal m q) (hm : m ≠ 0) :
    (10 : ℚ) ^ (ceiling m q - 23) ≤ quarter q := by
  have hlog : m.log2 ≤ 52 := Nat.le_of_lt_succ ((Nat.log2_lt hm).2 (by simpa [hiddenBit] using h.lt))
  have hleast := h.least
  have hmost := h.most
  have hpower := ten_zpow_le (a := m.log2 + q) (by omega) (by omega)
  have hten : (10 : ℚ) ^ (ceiling m q - 23) =
      10 ^ ((m.log2 + q) * 1233 / 4096) * (10 ^ 21)⁻¹ := by
    rw [ceiling, ← zpow_natCast, ← zpow_neg, ← zpow_add₀ (by norm_num)]
    congr 1
    omega
  have htwo : (2 : ℚ) ^ ((m.log2 : Int) + q) ≤ quarter q * 2 ^ 54 := by
    rw [quarter, ← zpow_natCast, ← zpow_add₀ (by norm_num)]
    exact zpow_le_zpow_right₀ (by norm_num) (by omega)
  have hu := quarter_pos q
  rw [hten]
  calc (10 : ℚ) ^ ((m.log2 + q) * 1233 / 4096) * (10 ^ 21)⁻¹
      ≤ 2 ^ ((m.log2 : Int) + q) * 10 ^ 4 * (10 ^ 21)⁻¹ :=
        mul_le_mul_of_nonneg_right hpower (by positivity)
    _ ≤ quarter q * 2 ^ 54 * 10 ^ 4 * (10 ^ 21)⁻¹ := by gcongr
    _ = quarter q * (2 ^ 54 * 10 ^ 4 * (10 ^ 21)⁻¹) := by ring
    _ ≤ quarter q := mul_le_of_le_one_right hu.le (by norm_num)

/-- The fewest digits of a number are in its span. -/
theorem Normal.holds_shortest {m : Nat} (h : Normal m q) (hm : m ≠ 0) (tie : Tie) :
    (Span.of m q).Holds q ((shortest tie m q).digits * 10 ^ (shortest tie m q).exponent) := by
  rw [shortest, if_neg hm, ← Span.has_iff]
  exact Span.has_descend tie 24 _ ⟨23, by decide, Span.has_below hm (h.grid_le hm)⟩

end Lox.Decimal
