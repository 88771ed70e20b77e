import Mathlib.Algebra.Order.Field.Power
import Mathlib.Algebra.Order.Field.Rat
import Mathlib.Tactic.Linarith
import Mathlib.Tactic.Ring
import MessagePack.Decimal.Shortest
import MessagePack.Proofs.Widening
/-
  Decimals as doubles: a decimal is read as the double that is nearest to it, and halfway between two as the one with
  an even significand. The neighbours of a double are a step away from it. A step down from a power of two is only
  half as long as a step up.

  What is proved:
    1. `Binary64.gap`, `Binary64.exists_above`, `Binary64.exists_below`: the neighbours of a double are doubles, and
       there is no other in between.
    2. `Decimal.roundsTo_iff`: the decimals that are read as a double are those at most half a step away.
    3. `Decimal.RoundsTo.unique`: a decimal is read as one double at most.
-/
namespace MessagePack

/-! ## Numbers -/

def Dyadic.value (d : Dyadic) : ℚ := d.significand * 2 ^ d.exponent

def Decimal.value (d : Decimal) : ℚ := d.digits * 10 ^ d.exponent

/-- The number of a double without its sign. Infinity has the number that would come next. -/
def Binary64.value (x : Binary64) : ℚ := x.magnitude.value

/-- A decimal that is read as a finite double, both without a sign. -/
structure Decimal.RoundsTo (d : Decimal) (x : Binary64) : Prop where
  finite : x.isFinite
  nearest : ∀ y : Binary64, ¬ y.isNaN → |d.value - x.value| ≤ |d.value - y.value|
  /-- Halfway, the significand is even. -/
  even : ∀ y : Binary64, ¬ y.isNaN → y.value ≠ x.value → |d.value - x.value| = |d.value - y.value| →
    x.magnitude.significand % 2 = 0

theorem two_zpow_pos (k : ℤ) : (0 : ℚ) < 2 ^ k := zpow_pos (by norm_num) k

theorem ten_zpow_pos (k : ℤ) : (0 : ℚ) < 10 ^ k := zpow_pos (by norm_num) k

/-- A step up is two halves. -/
theorem two_zpow_eq (k : ℤ) : (2 : ℚ) ^ k = 2 * 2 ^ (k - 1) := by
  rw [mul_comm, ← zpow_add_one₀ (by norm_num), sub_add_cancel]

/-- What is no farther from the lower one of two numbers is not above the middle between them. -/
theorem two_mul_le_of_nearer {a b d : ℚ} (hless : a < b) (h : |d - a| ≤ |d - b|) : 2 * d ≤ a + b := by
  by_contra habove
  rw [abs_of_pos (by linarith : 0 < d - a)] at h
  have hcloser : |d - b| < d - a := abs_lt.2 ⟨by linarith, by linarith⟩
  linarith

theorem le_two_mul_of_nearer {a b d : ℚ} (hless : b < a) (h : |d - a| ≤ |d - b|) : a + b ≤ 2 * d := by
  by_contra hbelow
  rw [abs_of_neg (by linarith : d - a < 0)] at h
  have hcloser : |d - b| < -(d - a) := abs_lt.2 ⟨by linarith, by linarith⟩
  linarith

namespace Binary64

/-! ## Neighbours -/

theorem magnitude_bounds (x : Binary64) :
    x.magnitude.significand < 2 ^ 53 ∧ -1074 ≤ x.magnitude.exponent ∧
      (-1074 < x.magnitude.exponent → 2 ^ 52 ≤ x.magnitude.significand) := by
  have hfraction := x.fractionField_lt
  unfold magnitude
  split
  · exact ⟨by simp only; omega, le_refl _, fun h => absurd h (lt_irrefl _)⟩
  · simp only [Nat.pow_eq]
    omega

/-- The number of a double, counted in steps of the least one. -/
theorem value_eq_steps (x : Binary64) : x.value = x.magnitude.steps * 2 ^ (-1074 : ℤ) := by
  obtain ⟨_, hleast, _⟩ := x.magnitude_bounds
  have hexponent : x.magnitude.exponent = (x.magnitude.exponent + 1074).toNat + -1074 := by omega
  have hpower : (2 : ℚ) ^ x.magnitude.exponent = 2 ^ (x.magnitude.exponent + 1074).toNat * 2 ^ (-1074 : ℤ) := by
    rw [← zpow_natCast, ← zpow_add₀ (by norm_num), ← hexponent]
  rw [value, Dyadic.value, Dyadic.steps, hpower, ← mul_assoc, Nat.cast_mul, Nat.cast_pow, Nat.cast_ofNat]

/-- Doubles with the same number have the same significand and exponent. -/
theorem magnitude_eq_of_value {x y : Binary64} (h : x.value = y.value) : x.magnitude = y.magnitude := by
  rw [value_eq_steps, value_eq_steps] at h
  have hsteps : x.magnitude.steps = y.magnitude.steps := by
    exact_mod_cast mul_right_cancel₀ (ne_of_gt (two_zpow_pos (-1074))) h
  obtain ⟨hexponent, hfraction⟩ := fields_eq_of_steps hsteps
  rw [magnitude, magnitude, hexponent, hfraction]

/-- The lowest double of a binade, but for the lowest binade. -/
def StartsBinade (x : Binary64) : Prop := x.fractionField = 0 ∧ 1 < x.exponentField

instance (x : Binary64) : Decidable x.StartsBinade := inferInstanceAs (Decidable (_ ∧ _))

/-- Half the step down from a double. -/
def halfDown (x : Binary64) : ℚ :=
  if x.StartsBinade then 2 ^ (x.magnitude.exponent - 2) else 2 ^ (x.magnitude.exponent - 1)

/-- Half the step up from a double. -/
def halfUp (x : Binary64) : ℚ := 2 ^ (x.magnitude.exponent - 1)

theorem halfDown_pos (x : Binary64) : 0 < x.halfDown := by
  unfold halfDown
  split
  · exact two_zpow_pos _
  · exact two_zpow_pos _

theorem halfUp_pos (x : Binary64) : 0 < x.halfUp := two_zpow_pos _

theorem halfDown_le (x : Binary64) : x.halfDown ≤ x.halfUp := by
  unfold halfDown halfUp
  split
  · exact zpow_le_zpow_right₀ (by norm_num) (by omega)
  · exact le_refl _

theorem two_mul_halfUp (x : Binary64) : 2 * x.halfUp = 2 ^ x.magnitude.exponent :=
  (two_zpow_eq _).symm

theorem significand_of_startsBinade {x : Binary64} (h : x.StartsBinade) : x.magnitude.significand = 2 ^ 52 := by
  obtain ⟨hfraction, hexponent⟩ := h
  have hne : x.exponentField ≠ 0 := by omega
  rw [magnitude, if_neg hne, hfraction]
  rfl

theorem lt_significand {x : Binary64} (h : ¬ x.StartsBinade) (hexponent : -1074 < x.magnitude.exponent) :
    2 ^ 52 < x.magnitude.significand := by
  unfold StartsBinade at h
  unfold magnitude at hexponent ⊢
  split
  case isTrue hzero => simp [hzero] at hexponent
  case isFalse hne =>
    rw [if_neg hne] at hexponent
    simp only [Nat.pow_eq] at hexponent ⊢
    omega

theorem exponent_of_startsBinade {x : Binary64} (h : x.StartsBinade) : -1074 < x.magnitude.exponent := by
  obtain ⟨_, hexponent⟩ := h
  have hne : x.exponentField ≠ 0 := by omega
  rw [magnitude, if_neg hne]
  simp only
  omega

theorem significand_pos {x : Binary64} (h : ¬ x.isZero) : 0 < x.magnitude.significand := by
  unfold magnitude
  split
  case isTrue hexponent =>
    have hfraction : x.fractionField ≠ 0 := by simpa [isZero, hexponent] using h
    exact Nat.pos_of_ne_zero hfraction
  case isFalse => simp

theorem not_nan_of_finite {x : Binary64} (h : x.isFinite) : ¬ x.isNaN := by
  simp only [isFinite, decide_eq_true_eq] at h
  simp [isNaN, h]

theorem finite_of_not {x : Binary64} (hnumber : ¬ x.isNaN) (hinfinite : ¬ x.isInfinite) : x.isFinite := by
  simp only [isNaN, isInfinite, Bool.and_eq_true, decide_eq_true_eq] at hnumber hinfinite
  simp only [isFinite, decide_eq_true_eq]
  exact fun hspecial => hnumber ⟨hspecial, fun hfraction => hinfinite ⟨hspecial, hfraction⟩⟩

section
variable {x y : Binary64}

/-- A double with a smaller exponent is not above the last one of the binade below. -/
theorem add_le_of_exponent_lt (h : y.magnitude.exponent < x.magnitude.exponent) :
    y.value + 2 * x.halfDown ≤ x.value := by
  obtain ⟨hm, hleast, _⟩ := y.magnitude_bounds
  have hhalf := two_zpow_pos (x.magnitude.exponent - 1)
  have hy : y.value ≤ (2 ^ 53 - 1) * 2 ^ (x.magnitude.exponent - 1) := by
    have hsignificand : (y.magnitude.significand : ℚ) ≤ 2 ^ 53 - 1 := by
      have hbound : (y.magnitude.significand : ℚ) + 1 ≤ 2 ^ 53 := by exact_mod_cast Nat.succ_le_of_lt hm
      linarith
    have hexponent : (2 : ℚ) ^ y.magnitude.exponent ≤ 2 ^ (x.magnitude.exponent - 1) :=
      zpow_le_zpow_right₀ (by norm_num) (by omega)
    exact mul_le_mul hsignificand hexponent (two_zpow_pos _).le (by norm_num)
  have hx : x.value = x.magnitude.significand * (2 * 2 ^ (x.magnitude.exponent - 1)) := by
    rw [← two_zpow_eq]
    rfl
  by_cases hstart : x.StartsBinade
  · have hdown : 2 * x.halfDown = 2 ^ (x.magnitude.exponent - 1) := by
      rw [halfDown, if_pos hstart, two_zpow_eq (x.magnitude.exponent - 1)]
      ring_nf
    rw [hx, significand_of_startsBinade hstart, hdown]
    push_cast
    linarith
  · have hdown : 2 * x.halfDown = 2 * 2 ^ (x.magnitude.exponent - 1) := by rw [halfDown, if_neg hstart]
    have hsignificand : (2 : ℚ) ^ 52 + 1 ≤ x.magnitude.significand := by
      have hbound : 2 ^ 52 + 1 ≤ x.magnitude.significand := lt_significand hstart (by omega)
      exact_mod_cast hbound
    have hproduct := mul_le_mul_of_nonneg_right hsignificand hhalf.le
    rw [hx, hdown]
    linarith

/-- A double with no smaller exponent is a multiple of the step. -/
theorem exists_multiple (h : x.magnitude.exponent ≤ y.magnitude.exponent) :
    ∃ n : ℕ, y.value = n * 2 ^ x.magnitude.exponent := by
  obtain ⟨shift, hshift⟩ := Int.eq_ofNat_of_zero_le (sub_nonneg.2 h)
  have hexponent : y.magnitude.exponent = shift + x.magnitude.exponent := by omega
  refine ⟨y.magnitude.significand * 2 ^ shift, ?_⟩
  rw [value, Dyadic.value, hexponent, zpow_add₀ (by norm_num), zpow_natCast]
  push_cast
  ring

/-- Between a double and its neighbours there is no other. -/
theorem gap (hne : y.value ≠ x.value) :
    y.value + 2 * x.halfDown ≤ x.value ∨ x.value + 2 * x.halfUp ≤ y.value := by
  have hstep := x.two_mul_halfUp
  have hdown := x.halfDown_le
  have hpos := (two_zpow_pos x.magnitude.exponent).le
  have hx : x.value = x.magnitude.significand * 2 ^ x.magnitude.exponent := rfl
  rcases lt_or_ge y.magnitude.exponent x.magnitude.exponent with hless | hge
  · exact .inl (add_le_of_exponent_lt hless)
  · obtain ⟨n, hy⟩ := exists_multiple hge
    rw [hy, hx] at hne ⊢
    rcases lt_trichotomy n x.magnitude.significand with hless | heq | hmore
    · left
      have hbound : (n : ℚ) + 1 ≤ x.magnitude.significand := by exact_mod_cast hless
      have hproduct := mul_le_mul_of_nonneg_right hbound hpos
      linarith
    · exact absurd (by rw [heq]) hne
    · right
      have hbound : (x.magnitude.significand : ℚ) + 1 ≤ n := by exact_mod_cast hmore
      have hproduct := mul_le_mul_of_nonneg_right hbound hpos
      linarith

end

/-- There is a double for each significand and exponent in their range, the last one of them infinity. -/
theorem exists_magnitude {m : ℕ} {q : ℤ} (hm : m < 2 ^ 53) (hleast : -1074 ≤ q)
    (hnormal : -1074 < q → 2 ^ 52 ≤ m) (hmost : q ≤ 971 ∨ q = 972 ∧ m = 2 ^ 52) :
    ∃ z : Binary64, ¬ z.isNaN ∧ z.magnitude = ⟨m, q⟩ := by
  by_cases hsmall : m < 2 ^ 52
  · have hexponent := exponentField_ofFields false (by decide : 0 < 2048) hsmall
    have hfraction := fractionField_ofFields false (by decide : 0 < 2048) hsmall
    refine ⟨ofFields false 0 m, by simp [isNaN, hexponent], ?_⟩
    rw [magnitude, if_pos hexponent, hfraction]
    congr 1
    omega
  · have hfield : (q + 1075).toNat < 2048 := by omega
    have hrest : m - 2 ^ 52 < 2 ^ 52 := by omega
    have hexponent := exponentField_ofFields false hfield hrest
    have hfraction := fractionField_ofFields false hfield hrest
    have hne : (ofFields false (q + 1075).toNat (m - 2 ^ 52)).exponentField ≠ 0 := by omega
    refine ⟨ofFields false (q + 1075).toNat (m - 2 ^ 52), ?_, ?_⟩
    · simp only [isNaN, hexponent, hfraction, Bool.and_eq_true, decide_eq_true_eq]
      omega
    · rw [magnitude, if_neg hne, hexponent, hfraction]
      simp only [Nat.pow_eq, Dyadic.mk.injEq]
      omega

theorem exponent_le_of_finite {x : Binary64} (h : x.isFinite) : x.magnitude.exponent ≤ 971 := by
  have hfield := x.exponentField_lt
  simp only [isFinite, decide_eq_true_eq] at h
  unfold magnitude
  split
  · simp
  · simp only
    omega

/-- The next number above a finite double is that of a double, and they differ in parity. -/
theorem exists_above {x : Binary64} (h : x.isFinite) : ∃ z : Binary64, ¬ z.isNaN ∧
    z.value = x.value + 2 * x.halfUp ∧ (x.magnitude.significand % 2 = 0 → z.magnitude.significand % 2 = 1) := by
  obtain ⟨hm, hleast, hnormal⟩ := x.magnitude_bounds
  have hmost := exponent_le_of_finite h
  have hvalue : x.value = x.magnitude.significand * 2 ^ x.magnitude.exponent := rfl
  rw [x.two_mul_halfUp, hvalue]
  generalize x.magnitude = d at hm hleast hnormal hmost ⊢
  obtain ⟨m, q⟩ := d
  simp only at hm hleast hnormal hmost ⊢
  by_cases hroom : m + 1 < 2 ^ 53
  · obtain ⟨z, hz, hmagnitude⟩ := exists_magnitude hroom hleast (fun hq => by have := hnormal hq; omega) (.inl hmost)
    refine ⟨z, hz, ?_, ?_⟩
    · rw [value, hmagnitude, Dyadic.value]
      push_cast
      ring
    · rw [hmagnitude]
      simp only
      omega
  · -- The last significand is odd, and the first one of the next binade comes behind it.
    obtain ⟨z, hz, hmagnitude⟩ := exists_magnitude (by decide : 2 ^ 52 < 2 ^ 53) (by omega : -1074 ≤ q + 1)
      (fun _ => le_refl _) (by omega)
    obtain rfl : m = 2 ^ 53 - 1 := by omega
    refine ⟨z, hz, ?_, by omega⟩
    rw [value, hmagnitude, Dyadic.value, zpow_add_one₀ (by norm_num)]
    push_cast
    ring

/-- The next number below a double is that of a double, if it is not zero. -/
theorem exists_below {x : Binary64} (h : x.isFinite) (hzero : ¬ x.isZero) :
    ∃ z : Binary64, ¬ z.isNaN ∧ z.value = x.value - 2 * x.halfDown := by
  obtain ⟨hm, hleast, hnormal⟩ := x.magnitude_bounds
  have hmost := exponent_le_of_finite h
  have hpos := significand_pos hzero
  have hvalue : x.value = x.magnitude.significand * 2 ^ x.magnitude.exponent := rfl
  rw [halfDown, hvalue]
  split
  case isTrue hstart =>
    have hexponent := exponent_of_startsBinade hstart
    rw [significand_of_startsBinade hstart]
    obtain ⟨z, hz, hmagnitude⟩ := exists_magnitude (by decide : 2 ^ 53 - 1 < 2 ^ 53)
      (by omega : -1074 ≤ x.magnitude.exponent - 1) (fun _ => by decide) (by omega)
    refine ⟨z, hz, ?_⟩
    rw [value, hmagnitude, Dyadic.value, two_zpow_eq x.magnitude.exponent, two_zpow_eq (x.magnitude.exponent - 1)]
    push_cast
    ring_nf
  case isFalse hstart =>
    obtain ⟨z, hz, hmagnitude⟩ := exists_magnitude (by omega : x.magnitude.significand - 1 < 2 ^ 53) hleast
      (fun hq => by have := lt_significand hstart hq; omega) (.inl hmost)
    refine ⟨z, hz, ?_⟩
    rw [value, hmagnitude, Dyadic.value, ← two_zpow_eq, Nat.cast_pred hpos]
    ring

end Binary64

namespace Decimal
variable {d : Decimal} {x y : Binary64}

/-- How a decimal is read depends on its number only. -/
theorem RoundsTo.of_value {d' : Decimal} (h : d.RoundsTo x) (hvalue : d'.value = d.value) : d'.RoundsTo x :=
  ⟨h.finite, fun y hy => by rw [hvalue]; exact h.nearest y hy,
    fun y hy hne htie => h.even y hy hne (by rw [← hvalue]; exact htie)⟩

/-- What is at most half a step away from a double is read as that double, if it is nearer than that or the double
is even. -/
theorem roundsTo_of_between (hfinite : x.isFinite) (hlow : x.value - x.halfDown ≤ d.value)
    (hhigh : d.value ≤ x.value + x.halfUp)
    (hinside : x.magnitude.significand % 2 = 0 ∨ x.value - x.halfDown < d.value ∧ d.value < x.value + x.halfUp) :
    d.RoundsTo x := by
  have hdown := x.halfDown_pos
  have hup := x.halfUp_pos
  refine ⟨hfinite, ?nearest, ?even⟩
  case nearest =>
    intro y _
    by_cases hy : y.value = x.value
    · rw [hy]
    · rcases Binary64.gap hy with hbelow | habove
      · exact abs_le_abs (by linarith) (by linarith)
      · rw [abs_sub_comm d.value, abs_sub_comm d.value]
        exact abs_le_abs (by linarith) (by linarith)
  case even =>
    intro y _ hy htie
    rcases hinside with heven | ⟨hlow, hhigh⟩
    · exact heven
    · have hcloser : |d.value - x.value| < |d.value - y.value| := by
        rcases Binary64.gap hy with hbelow | habove
        · rw [abs_of_pos (by linarith : 0 < d.value - y.value)]
          exact abs_lt.2 ⟨by linarith, by linarith⟩
        · rw [abs_of_neg (by linarith : d.value - y.value < 0)]
          exact abs_lt.2 ⟨by linarith, by linarith⟩
      exact absurd htie (ne_of_lt hcloser)

/-- The decimals that are read as a double are those at most half a step away, the ends only if it is even. -/
theorem roundsTo_iff (hfinite : x.isFinite) (hzero : ¬ x.isZero) : d.RoundsTo x ↔
    x.value - x.halfDown ≤ d.value ∧ d.value ≤ x.value + x.halfUp ∧
      (x.magnitude.significand % 2 = 0 ∨ x.value - x.halfDown < d.value ∧ d.value < x.value + x.halfUp) := by
  refine ⟨?_, fun ⟨hlow, hhigh, hinside⟩ => roundsTo_of_between hfinite hlow hhigh hinside⟩
  intro h
  have hdown := x.halfDown_pos
  have hup := x.halfUp_pos
  obtain ⟨above, habove, habovevalue, _⟩ := Binary64.exists_above hfinite
  obtain ⟨below, hbelow, hbelowvalue⟩ := Binary64.exists_below hfinite hzero
  have hhigh : d.value ≤ x.value + x.halfUp := by
    have hmiddle := two_mul_le_of_nearer (by linarith) (h.nearest above habove)
    linarith
  have hlow : x.value - x.halfDown ≤ d.value := by
    have hmiddle := le_two_mul_of_nearer (by linarith) (h.nearest below hbelow)
    linarith
  refine ⟨hlow, hhigh, ?_⟩
  by_cases heven : x.magnitude.significand % 2 = 0
  · exact .inl heven
  · refine .inr ⟨lt_of_le_of_ne hlow ?_, lt_of_le_of_ne hhigh ?_⟩
    · intro hend
      refine heven (h.even below hbelow (by linarith) ?_)
      rw [abs_of_neg (by linarith : d.value - x.value < 0), abs_of_pos (by linarith : 0 < d.value - below.value)]
      linarith
    · intro hend
      refine heven (h.even above habove (by linarith) ?_)
      rw [abs_of_pos (by linarith : 0 < d.value - x.value), abs_of_neg (by linarith : d.value - above.value < 0)]
      linarith

/-! ## One double for each decimal -/

/-- Of two doubles that a decimal is read as, none is above the other. -/
theorem RoundsTo.not_lt (hx : d.RoundsTo x) (hy : d.RoundsTo y) : ¬ x.value < y.value := by
  intro hless
  have hxnumber := Binary64.not_nan_of_finite hx.finite
  have hynumber := Binary64.not_nan_of_finite hy.finite
  have htie : |d.value - x.value| = |d.value - y.value| := le_antisymm (hx.nearest y hynumber) (hy.nearest x hxnumber)
  have hxeven := hx.even y hynumber (ne_of_gt hless) htie
  have hyeven := hy.even x hxnumber (ne_of_lt hless) htie.symm
  -- The decimal is halfway between the two, and the double after the lower one is nearer or is the upper one.
  have hhalf : 2 * d.value = x.value + y.value := by
    rcases abs_eq_abs.1 htie with heq | heq
    · linarith
    · linarith
  obtain ⟨z, hz, hzvalue, hparity⟩ := Binary64.exists_above hx.finite
  have hzodd := hparity hxeven
  have hup := x.halfUp_pos
  rcases Binary64.gap (ne_of_gt hless) with hbelow | habove
  · linarith [x.halfDown_pos]
  · rcases eq_or_lt_of_le habove with heq | hbetween
    · rw [Binary64.magnitude_eq_of_value (hzvalue.trans heq)] at hzodd
      omega
    · have hlow := two_mul_le_of_nearer (by linarith) (hx.nearest z hz)
      linarith

/-- A decimal is read as one double at most, up to the sign. -/
theorem RoundsTo.unique (hx : d.RoundsTo x) (hy : d.RoundsTo y) : x.magnitude = y.magnitude :=
  Binary64.magnitude_eq_of_value (le_antisymm (le_of_not_gt (hy.not_lt hx)) (le_of_not_gt (hx.not_lt hy)))

end Decimal
end MessagePack
