import Mathlib.Algebra.Order.Field.Power
import Mathlib.Algebra.Order.Ring.Rat
import Mathlib.Tactic.Positivity
import Mathlib.Tactic.Ring
import TypedTree.Number.Shortest

/-! What the shortest decimal of a double tells about it. The decimal lies in the interval of the numbers that round to
    the double, and the intervals of two doubles of different magnitude do not meet: each begins where the one before
    ends, and of two neighbours only the one with the even significand contains the point between them. -/

namespace TypedTree

/-- The number that a decimal stands for. -/
def Decimal.value (d : Decimal) : ℚ := d.digits * 10 ^ d.exponent

namespace Binary64

/-! ### Intervals of rational numbers -/

namespace Reach
variable {r : Reach}

def lower (r : Reach) : ℚ := r.low * 2 ^ r.power

def upper (r : Reach) : ℚ := r.high * 2 ^ r.power

/-- The number lies in the interval. -/
def Holds (r : Reach) (v : ℚ) : Prop :=
  r.lower ≤ v ∧ v ≤ r.upper ∧ (r.closed = false → r.lower ≠ v ∧ v ≠ r.upper)

theorem pow_toNat {b : ℚ} (hb : b ≠ 0) (p : ℤ) : b ^ p.toNat = b ^ p * b ^ (-p).toNat := by
  obtain ⟨n, rfl | rfl⟩ := p.eq_nat_or_neg
  · simp
  · simp [hb]

/-- Points of the grid and ends of the interval are compared in a unit that both are whole multiples of. -/
theorem exists_unit (r : Reach) (p : ℤ) : ∃ u : ℚ, 0 < u ∧ (∀ c : ℕ, ((c * r.step p : ℕ) : ℚ) = (⟨c, p⟩ : Decimal).value * u) ∧
    ∀ e : ℕ, ((e * r.unit p : ℕ) : ℚ) = e * 2 ^ r.power * u := by
  refine ⟨10 ^ (-p).toNat * 2 ^ (-r.power).toNat, by positivity, fun c => ?_, fun e => ?_⟩
  · simp only [step, Nat.pow_eq, Nat.cast_mul, Nat.cast_pow, Nat.cast_ofNat, Decimal.value]
    rw [pow_toNat (by norm_num : (10 : ℚ) ≠ 0) p]
    ring
  · simp only [unit, Nat.pow_eq, Nat.cast_mul, Nat.cast_pow, Nat.cast_ofNat]
    rw [pow_toNat (by norm_num : (2 : ℚ) ≠ 0) r.power]
    ring

theorem holds_of_contains {p : ℤ} {c : ℕ} (h : r.contains p c = true) : r.Holds (⟨c, p⟩ : Decimal).value := by
  obtain ⟨u, hu, hgrid, hend⟩ := r.exists_unit p
  have le_iff : ∀ {a b : ℕ} {v w : ℚ}, (a : ℚ) = v * u → (b : ℚ) = w * u → (a ≤ b ↔ v ≤ w) := by
    intro a b v w ha hb
    rw [← Nat.cast_le (α := ℚ), ha, hb, mul_le_mul_iff_of_pos_right hu]
  have hlow := le_iff (hend r.low) (hgrid c)
  have hhigh := le_iff (hgrid c) (hend r.high)
  have hlow' := le_iff (hgrid c) (hend r.low)
  have hhigh' := le_iff (hend r.high) (hgrid c)
  unfold contains at h
  by_cases hc : r.closed = true
  · rw [if_pos hc, Bool.and_eq_true, decide_eq_true_iff, decide_eq_true_iff] at h
    exact ⟨hlow.mp h.1, hhigh.mp h.2, fun hopen => absurd hc (by simp [hopen])⟩
  · rw [if_neg hc, Bool.and_eq_true, decide_eq_true_iff, decide_eq_true_iff] at h
    refine ⟨hlow.mp h.1.le, hhigh.mp h.2.le, fun _ => ⟨fun e => ?_, fun e => ?_⟩⟩
    · exact absurd (hlow'.mpr e.ge) (Nat.not_le.mpr h.1)
    · exact absurd (hhigh'.mpr e.ge) (Nat.not_le.mpr h.2)

/-! ### The search -/

theorem contains_of_nearest? {tie : Tie} {p : ℤ} {c : ℕ} (h : r.nearest? tie p = some c) : r.contains p c = true := by
  unfold nearest? at h
  dsimp only at h
  generalize r.centre * r.unit p / r.step p = below at h
  generalize r.centre * r.unit p % r.step p = rest at h
  cases hb : r.contains p below <;> cases ha : r.contains p (below + 1) <;> rw [hb, ha] at h
  · cases h
  · cases h
    exact ha
  · cases h
    exact hb
  · have between : c = below ∨ c = below + 1 := by
      dsimp only at h
      split at h
      · exact .inl (Option.some.inj h).symm
      · split at h
        · exact .inr (Option.some.inj h).symm
        · cases tie
          · exact .inr (Option.some.inj h).symm
          · have := Option.some.inj h
            omega
    rcases between with rfl | rfl
    · exact hb
    · exact ha

/-- The centre is written exactly. -/
theorem value_exact (r : Reach) : r.exact.value = r.centre * 2 ^ r.power := by
  unfold exact
  by_cases hp : 0 ≤ r.power
  · obtain ⟨n, hn⟩ := Int.eq_ofNat_of_zero_le hp
    rw [if_pos hp, hn]
    simp [Decimal.value]
  · obtain ⟨n, hn⟩ := Int.eq_ofNat_of_zero_le (Int.neg_nonneg.mpr (Int.not_le.mp hp).le)
    obtain hn : r.power = -(n : ℤ) := by omega
    have hpow : (10 : ℚ) ^ n = 2 ^ n * 5 ^ n := by rw [← mul_pow]; norm_num
    rw [if_neg hp, hn]
    simp only [Decimal.value, neg_neg, Int.toNat_natCast, Nat.pow_eq, Nat.cast_mul, Nat.cast_pow, Nat.cast_ofNat,
      zpow_neg, zpow_natCast, hpow, mul_inv]
    rw [mul_comm ((2 : ℚ) ^ n)⁻¹, ← mul_assoc, mul_inv_cancel_right₀ (by positivity)]

theorem holds_search {tie : Tie} (hlow : r.low < r.centre) (hhigh : r.centre < r.high) (fuel : ℕ) (p : ℤ) :
    r.Holds (r.search tie fuel p).value := by
  induction fuel generalizing p with
  | zero =>
    have hpos : (0 : ℚ) < 2 ^ r.power := by positivity
    have hl : r.lower < r.exact.value := by
      rw [value_exact, lower]
      exact mul_lt_mul_of_pos_right (by exact_mod_cast hlow) hpos
    have hh : r.exact.value < r.upper := by
      rw [value_exact, upper]
      exact mul_lt_mul_of_pos_right (by exact_mod_cast hhigh) hpos
    exact ⟨hl.le, hh.le, fun _ => ⟨hl.ne, hh.ne⟩⟩
  | succ fuel ih =>
    rw [search]
    cases hn : r.nearest? tie p with
    | none => exact ih (p - 1)
    | some c => exact holds_of_contains (contains_of_nearest? hn)

end Reach

/-! ### Magnitudes -/

/-- The bits without the sign. They count the doubles of smaller magnitude. -/
def rank (x : Binary64) : ℕ := x.bits.toNat % 0x8000000000000000

section Bits
variable (x : Binary64)

theorem exponentBits_eq : x.exponentBits = x.rank / hiddenBit := by
  unfold exponentBits rank hiddenBit
  omega

theorem fractionBits_eq : x.fractionBits = x.rank % hiddenBit := by
  unfold fractionBits rank hiddenBit
  omega

theorem isZero_iff : x.isZero = true ↔ x.rank = 0 := by
  rw [isZero, Bool.and_eq_true, beq_iff_eq, beq_iff_eq, exponentBits_eq, fractionBits_eq]
  unfold hiddenBit
  omega

variable {x}

theorem eq_of_rank {y : Binary64} (hsign : x.isNegative = y.isNegative) (h : x.rank = y.rank) : x = y := by
  obtain ⟨a⟩ := x
  obtain ⟨b⟩ := y
  congr 1
  refine UInt64.toNat_inj.mp ?_
  have ha := a.toNat_lt
  have hb := b.toNat_lt
  unfold rank at h
  unfold isNegative at hsign
  rw [decide_eq_decide] at hsign
  dsimp only at h hsign
  omega

end Bits

/-! ### Where the intervals end -/

/-- The significand of the doubles of rank `m`. -/
def significandAt (m : ℕ) : ℕ := if m / hiddenBit = 0 then m % hiddenBit else hiddenBit + m % hiddenBit

/-- Where the interval of rank `m` begins, in units of `2 ^ -1076`. -/
def lowAt (m : ℕ) : ℕ :=
  (4 * significandAt m - if m % hiddenBit = 0 ∧ 1 < m / hiddenBit then 1 else 2) * 2 ^ (m / hiddenBit - 1)

/-- Where the interval of rank `m` ends, in units of `2 ^ -1076`. -/
def highAt (m : ℕ) : ℕ := (4 * significandAt m + 2) * 2 ^ (m / hiddenBit - 1)

theorem significand_eq (x : Binary64) : x.significand = significandAt x.rank := by
  rw [significand, significandAt, exponentBits_eq, fractionBits_eq]

theorem two_zpow_power (x : Binary64) : (2 : ℚ) ^ x.reach.power = 2 ^ (x.rank / hiddenBit - 1) * 2 ^ (-1076 : ℤ) := by
  rw [← zpow_natCast, ← zpow_add₀ (by norm_num : (2 : ℚ) ≠ 0)]
  congr 1
  rw [reach, power, exponentBits_eq]
  dsimp only
  by_cases h : x.rank / hiddenBit = 0
  · rw [if_pos h, h]
    rfl
  · rw [if_neg h]
    have := Nat.pos_of_ne_zero h
    omega

theorem lower_eq (x : Binary64) : x.reach.lower = lowAt x.rank * 2 ^ (-1076 : ℤ) := by
  rw [Reach.lower, two_zpow_power, lowAt, ← significand_eq, ← fractionBits_eq, ← exponentBits_eq]
  simp only [reach, Nat.cast_mul, Nat.cast_pow, Nat.cast_ofNat]
  ring

theorem upper_eq (x : Binary64) : x.reach.upper = highAt x.rank * 2 ^ (-1076 : ℤ) := by
  rw [Reach.upper, two_zpow_power, highAt, ← significand_eq, ← exponentBits_eq]
  simp only [reach, Nat.cast_mul, Nat.cast_pow, Nat.cast_ofNat]
  ring

/-- An interval ends where the next one begins. -/
theorem highAt_eq_lowAt_succ (m : ℕ) : highAt m = lowAt (m + 1) := by
  unfold highAt lowAt significandAt
  by_cases hlast : m % hiddenBit + 1 = hiddenBit
  -- The next number is a power of two, and its lower half interval is of the width of this one.
  · have hdiv : (m + 1) / hiddenBit = m / hiddenBit + 1 := by unfold hiddenBit at *; omega
    have hmod : (m + 1) % hiddenBit = 0 := by unfold hiddenBit at *; omega
    rw [hdiv, hmod, Nat.add_sub_cancel, if_neg (Nat.succ_ne_zero _), Nat.add_zero]
    cases he : m / hiddenBit with
    | zero =>
      rw [if_pos rfl, if_neg (by omega)]
      unfold hiddenBit at *
      omega
    | succ e =>
      rw [if_neg (Nat.succ_ne_zero _), if_pos ⟨rfl, by omega⟩, Nat.add_sub_cancel, pow_succ, ← mul_assoc, mul_right_comm]
      congr 1
      unfold hiddenBit at *
      omega
  · have hdiv : (m + 1) / hiddenBit = m / hiddenBit := by unfold hiddenBit at *; omega
    have hmod : (m + 1) % hiddenBit = m % hiddenBit + 1 := by unfold hiddenBit at *; omega
    have hnot : ¬(m % hiddenBit + 1 = 0 ∧ 1 < m / hiddenBit) := fun h => Nat.succ_ne_zero _ h.1
    rw [hdiv, hmod, if_neg hnot]
    congr 1
    split <;> omega

theorem lowAt_lt_highAt (m : ℕ) : lowAt m < highAt m :=
  Nat.mul_lt_mul_of_pos_right (by omega) (Nat.two_pow_pos _)

theorem highAt_strictMono : StrictMono highAt :=
  strictMono_nat_of_lt_succ fun m => by
    rw [highAt_eq_lowAt_succ]
    exact lowAt_lt_highAt (m + 1)

theorem closed_eq (x : Binary64) : x.reach.closed = (x.rank % 2 == 0) := by
  have parity : significandAt x.rank % 2 = x.rank % 2 := by
    unfold significandAt hiddenBit
    split <;> omega
  rw [reach, significand_eq]
  dsimp only
  rw [parity]

/-- The intervals of smaller numbers lie below. -/
theorem not_holds_of_rank_lt {x y : Binary64} (h : x.rank < y.rank) {v : ℚ} (hx : x.reach.Holds v) : ¬y.reach.Holds v := by
  rintro hy
  have hunit : (0 : ℚ) < 2 ^ (-1076 : ℤ) := by positivity
  have hle : lowAt y.rank ≤ highAt x.rank := by
    have hle := hy.1.trans hx.2.1
    rw [lower_eq, upper_eq, mul_le_mul_iff_of_pos_right hunit] at hle
    exact_mod_cast hle
  obtain ⟨m, hm⟩ : ∃ m, y.rank = m + 1 := ⟨y.rank - 1, by omega⟩
  rw [hm, ← highAt_eq_lowAt_succ, highAt_strictMono.le_iff_le] at hle
  -- So the two are neighbours, and the point between them belongs to one of them only.
  have hnext : y.rank = x.rank + 1 := by omega
  have hends : x.reach.upper = y.reach.lower := by rw [upper_eq, lower_eq, hnext, highAt_eq_lowAt_succ]
  have hv : v = x.reach.upper := le_antisymm hx.2.1 (hends ▸ hy.1)
  rcases Nat.mod_two_eq_zero_or_one x.rank with heven | hodd
  · exact (hy.2.2 (by rw [closed_eq, hnext, beq_eq_false_iff_ne]; omega)).1 (hends ▸ hv.symm)
  · exact (hx.2.2 (by rw [closed_eq, hodd]; rfl)).2 hv

/-! ### The shortest decimal -/

theorem significand_pos {x : Binary64} (hx : x.isZero = false) : 0 < x.significand := by
  have hrank : x.rank ≠ 0 := fun h => by rw [(isZero_iff x).mpr h] at hx; cases hx
  rw [significand_eq]
  unfold significandAt hiddenBit
  split <;> omega

theorem holds_shortest {x : Binary64} (hx : x.isZero = false) (tie : Tie) : x.reach.Holds (x.shortest tie).value := by
  have hpos := significand_pos hx
  refine Reach.holds_search ?_ ?_ 20 _
  · show 4 * x.significand - (if _ then 1 else 2) < 4 * x.significand
    split <;> omega
  · show 4 * x.significand < 4 * x.significand + 2
    omega

theorem shortest_pos {x : Binary64} (hx : x.isZero = false) (tie : Tie) : 0 < (x.shortest tie).value := by
  have hpos := significand_pos hx
  have hlow : 0 < x.reach.low := by
    show 0 < 4 * x.significand - (if _ then 1 else 2)
    split <;> omega
  have hlower : 0 < x.reach.lower := mul_pos (by exact_mod_cast hlow) (by positivity)
  exact hlower.trans_le (holds_shortest hx tie).1

/-- Doubles with equal shortest decimals have the same magnitude. -/
theorem rank_eq_of_shortest {x y : Binary64} (hx : x.isZero = false) (hy : y.isZero = false) {tie : Tie}
    (h : (x.shortest tie).value = (y.shortest tie).value) : x.rank = y.rank := by
  have hxv := holds_shortest hx tie
  have hyv := holds_shortest hy tie
  rw [h] at hxv
  rcases Nat.lt_trichotomy x.rank y.rank with hlt | heq | hgt
  · exact absurd hyv (not_holds_of_rank_lt hlt hxv)
  · exact heq
  · exact absurd hxv (not_holds_of_rank_lt hgt hyv)

end Binary64
end TypedTree
