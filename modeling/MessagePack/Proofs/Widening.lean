import Mathlib.Algebra.Group.Int.Defs
import Mathlib.Algebra.Group.Nat.Defs
import MessagePack.Binary.Nearest
/-
  Singles as doubles. A finite number is compared with another one by counting in steps of 2^-1074, the least
  positive double, so nothing but whole numbers is needed. An infinity stays one, a NaN keeps its payload at the
  top of the fraction, and nothing loses its sign. (A processor may also set the bit that makes a NaN quiet;
  no print of a double shows it, and a comparison by bits has to take all NaNs for one.)

  What is proved:
    1. `Binary64.ext_fields`, `Binary64.fields_eq_of_steps`: a double is known by its fields, and a finite one by
       its sign and its number.
    2. `Binary32.widens_widen`: widening a single gives a double that is the same number.
    3. `Binary32.widens_iff`: there is no other.
-/
namespace MessagePack

/-! ## Numbers -/

/-- A number as a multiple of 2^-1074, given that its exponent is not below. -/
def Dyadic.steps (d : Dyadic) : Nat := d.significand * 2 ^ (d.exponent + 1074).toNat

namespace Binary32

def isFinite (x : Binary32) : Bool := x.exponentField ≠ 255

def isInfinite (x : Binary32) : Bool := x.exponentField = 255 && x.fractionField = 0

/-- The magnitude of a finite single. A normal one has a leading bit that is not stored. -/
def magnitude (x : Binary32) : Dyadic :=
  if x.exponentField = 0 then ⟨x.fractionField, -149⟩
  else ⟨2 ^ 23 + x.fractionField, (x.exponentField : Int) - 150⟩

end Binary32

def Binary64.isFinite (x : Binary64) : Bool := x.exponentField ≠ 2047

/-- A single and a double that stand for the same: for the same number or infinity with the same sign, or for NaNs
with the same payload, which begins at the top of the fraction. -/
structure Binary32.Widens (x : Binary32) (y : Binary64) : Prop where
  sign_eq : y.isNegative = x.isNegative
  finite : x.isFinite → y.isFinite ∧ y.magnitude.steps = x.magnitude.steps
  infinite : x.isInfinite → y.isInfinite
  nan : x.isNaN → y.isNaN ∧ y.fractionField = x.fractionField * 2 ^ 29

/-! ## Fields -/

theorem Binary32.exponentField_lt (x : Binary32) : x.exponentField < 256 := Nat.mod_lt _ (by decide)

theorem Binary32.fractionField_lt (x : Binary32) : x.fractionField < 2 ^ 23 := Nat.mod_lt _ (by decide)

namespace Binary64

theorem exponentField_lt (x : Binary64) : x.exponentField < 2048 := Nat.mod_lt _ (by decide)

theorem fractionField_lt (x : Binary64) : x.fractionField < 2 ^ 52 := Nat.mod_lt _ (by decide)

/-- The bits of a double, put together from its fields. -/
theorem toNat_bits (x : Binary64) :
    x.bits.toNat = (if x.isNegative then 2 ^ 63 else 0) + x.exponentField * 2 ^ 52 + x.fractionField := by
  have hbits : x.bits.toNat < 2 ^ 64 := x.bits.toNat_lt
  simp only [isNegative, exponentField, fractionField, decide_eq_true_eq, Nat.pow_eq]
  split <;> omega

/-- Doubles with the same fields are the same. -/
theorem ext_fields {x y : Binary64} (hsign : x.isNegative = y.isNegative)
    (hexponent : x.exponentField = y.exponentField) (hfraction : x.fractionField = y.fractionField) : x = y := by
  have hbits : x.bits.toNat = y.bits.toNat := by
    rw [x.toNat_bits, y.toNat_bits, hsign, hexponent, hfraction]
  cases x
  cases y
  exact congrArg Binary64.mk (UInt64.toNat_inj.1 hbits)

section
variable (negative : Bool) {exponent fraction : Nat} (hexponent : exponent < 2048) (hfraction : fraction < 2 ^ 52)
include hexponent hfraction

theorem toNat_ofFields : (ofFields negative exponent fraction).bits.toNat
    = (if negative then 2 ^ 63 else 0) + exponent * 2 ^ 52 + fraction := by
  show (UInt64.ofNat _).toNat = _
  rw [UInt64.toNat_ofNat']
  cases negative <;> simp only [Nat.pow_eq, if_true, if_false, Bool.false_eq_true] <;> omega

theorem isNegative_ofFields : (ofFields negative exponent fraction).isNegative = negative := by
  rw [isNegative, toNat_ofFields negative hexponent hfraction]
  cases negative <;> simp only [Nat.pow_eq, if_true, if_false, Bool.false_eq_true, decide_eq_true_iff,
    decide_eq_false_iff_not] <;> omega

theorem exponentField_ofFields : (ofFields negative exponent fraction).exponentField = exponent := by
  rw [exponentField, toNat_ofFields negative hexponent hfraction]
  cases negative <;> simp only [Nat.pow_eq, if_true, if_false, Bool.false_eq_true] <;> omega

theorem fractionField_ofFields : (ofFields negative exponent fraction).fractionField = fraction := by
  rw [fractionField, toNat_ofFields negative hexponent hfraction]
  cases negative <;> simp only [Nat.pow_eq, if_true, if_false, Bool.false_eq_true] <;> omega

end

/-! ## One double for each number -/

theorem steps_of_subnormal {x : Binary64} (h : x.exponentField = 0) : x.magnitude.steps = x.fractionField := by
  rw [magnitude, if_pos h, Dyadic.steps]
  exact Nat.mul_one _

theorem steps_of_normal {x : Binary64} {e : Nat} (h : x.exponentField = e + 1) :
    x.magnitude.steps = (2 ^ 52 + x.fractionField) * 2 ^ e := by
  have hne : x.exponentField ≠ 0 := by omega
  have hexponent : ((x.exponentField : Int) - 1075 + 1074).toNat = e := by omega
  rw [magnitude, if_neg hne, Dyadic.steps]
  simp only [hexponent, Nat.pow_eq]

/-- Of two normal significands, the one with the greater exponent has the greater number. -/
theorem steps_lt {f g a b : Nat} (hf : f < 2 ^ 52) (h : a < b) : (2 ^ 52 + f) * 2 ^ a < (2 ^ 52 + g) * 2 ^ b := by
  have hdouble : 2 ^ a * 2 ≤ 2 ^ b := by
    rw [← Nat.pow_succ]
    exact Nat.pow_le_pow_right (by decide) h
  calc (2 ^ 52 + f) * 2 ^ a
      < (2 ^ 52 * 2) * 2 ^ a := Nat.mul_lt_mul_of_pos_right (by omega) (Nat.pow_pos (by decide))
    _ = 2 ^ 52 * (2 ^ a * 2) := by rw [Nat.mul_assoc, Nat.mul_comm 2]
    _ ≤ 2 ^ 52 * 2 ^ b := Nat.mul_le_mul_left _ hdouble
    _ ≤ (2 ^ 52 + g) * 2 ^ b := Nat.mul_le_mul_right _ (Nat.le_add_right _ _)

/-- No number is that of two doubles without a sign. -/
theorem fields_eq_of_steps {x y : Binary64} (h : x.magnitude.steps = y.magnitude.steps) :
    x.exponentField = y.exponentField ∧ x.fractionField = y.fractionField := by
  have hx := x.fractionField_lt
  have hy := y.fractionField_lt
  have hle (f e : Nat) : 2 ^ 52 ≤ (2 ^ 52 + f) * 2 ^ e :=
    Nat.le_trans (Nat.le_add_right _ f) (Nat.le_mul_of_pos_right _ (Nat.pow_pos (by decide)))
  cases hex : x.exponentField with
  | zero =>
    rw [steps_of_subnormal hex] at h
    cases hey : y.exponentField with
    | zero => exact ⟨rfl, h.trans (steps_of_subnormal hey)⟩
    | succ e =>
      rw [steps_of_normal hey] at h
      exact absurd (h ▸ hle _ _) (Nat.not_le_of_lt hx)
  | succ a =>
    rw [steps_of_normal hex] at h
    cases hey : y.exponentField with
    | zero =>
      rw [steps_of_subnormal hey] at h
      exact absurd (h ▸ hle _ _) (Nat.not_le_of_lt hy)
    | succ b =>
      rw [steps_of_normal hey] at h
      rcases Nat.lt_trichotomy a b with hless | rfl | hless
      · exact absurd h (Nat.ne_of_lt (steps_lt hx hless))
      · have hsum := Nat.eq_of_mul_eq_mul_right (Nat.pow_pos (by decide)) h
        exact ⟨rfl, Nat.add_left_cancel hsum⟩
      · exact absurd h (Nat.ne_of_gt (steps_lt hy hless))

end Binary64

/-! ## Widening -/

namespace Binary32
variable {x : Binary32}

theorem steps_of_subnormal (h : x.exponentField = 0) : x.magnitude.steps = x.fractionField * 2 ^ 925 := by
  rw [magnitude, if_pos h]
  rfl

theorem steps_of_normal {e : Nat} (h : x.exponentField = e + 1) :
    x.magnitude.steps = (2 ^ 23 + x.fractionField) * 2 ^ (e + 925) := by
  have hne : x.exponentField ≠ 0 := by omega
  have hexponent : ((x.exponentField : Int) - 150 + 1074).toNat = e + 925 := by omega
  rw [magnitude, if_neg hne, Dyadic.steps]
  simp only [hexponent]

/-- The fraction is moved to the top of the longer one, and the exponent counts from another bias. -/
theorem widen_of_normal {e : Nat} (h : x.exponentField = e + 1) (hfinite : x.exponentField ≠ 255) :
    x.widen = .ofFields x.isNegative (e + 897) (x.fractionField * 2 ^ 29) := by
  have hpos : 0 < x.exponentField := by omega
  have hexponent : x.exponentField + 896 = e + 897 := by omega
  unfold widen
  simp only [hfinite, if_false, hpos, if_true, hexponent, Nat.pow_eq]

theorem widen_of_special (h : x.exponentField = 255) :
    x.widen = .ofFields x.isNegative 2047 (x.fractionField * 2 ^ 29) := by
  unfold widen
  simp only [h, if_true, Nat.pow_eq]

theorem widen_of_zero (h : x.exponentField = 0) (hzero : x.fractionField = 0) :
    x.widen = .ofFields x.isNegative 0 0 := by
  unfold widen
  simp only [h, hzero]
  rfl

theorem widen_of_subnormal (h : x.exponentField = 0) (hpos : x.fractionField ≠ 0) :
    x.widen = .ofFields x.isNegative (874 + x.fractionField.log2)
      ((x.fractionField - 2 ^ x.fractionField.log2) * 2 ^ (52 - x.fractionField.log2)) := by
  unfold widen
  simp only [h, hpos, if_false, Nat.pow_eq]
  rfl

/-- The leading bit of a fraction is the one that a double does not store. -/
theorem shifted_fraction {f : Nat} (hpos : f ≠ 0) (hless : f < 2 ^ 23) :
    f.log2 ≤ 22 ∧ (f - 2 ^ f.log2) * 2 ^ (52 - f.log2) < 2 ^ 52 ∧
      (2 ^ 52 + (f - 2 ^ f.log2) * 2 ^ (52 - f.log2)) = f * 2 ^ (52 - f.log2) := by
  have hlog : f.log2 ≤ 22 := Nat.le_of_lt_succ ((Nat.log2_lt hpos).2 hless)
  have hlow : 2 ^ f.log2 ≤ f := Nat.log2_self_le hpos
  have hhigh : f < 2 ^ (f.log2 + 1) := Nat.lt_log2_self
  have hunit : 2 ^ f.log2 * 2 ^ (52 - f.log2) = 2 ^ 52 := by
    rw [← Nat.pow_add, Nat.add_sub_cancel' (Nat.le_trans hlog (by decide))]
  rw [Nat.pow_succ] at hhigh
  refine ⟨hlog, ?_, ?_⟩
  · calc (f - 2 ^ f.log2) * 2 ^ (52 - f.log2)
        < 2 ^ f.log2 * 2 ^ (52 - f.log2) := Nat.mul_lt_mul_of_pos_right (by omega) (Nat.pow_pos (by decide))
      _ = 2 ^ 52 := hunit
  · rw [← hunit, ← Nat.add_mul, Nat.add_sub_cancel' hlow]

theorem widen_of_finite (h : x.exponentField ≠ 255) :
    x.widen.isNegative = x.isNegative ∧ x.widen.exponentField ≠ 2047 ∧
      x.widen.magnitude.steps = x.magnitude.steps := by
  have hexponent := x.exponentField_lt
  have hfraction := x.fractionField_lt
  cases he : x.exponentField with
  | succ e =>
    have hshifted : x.fractionField * 2 ^ 29 < 2 ^ 52 := by omega
    have hfield : e + 897 < 2048 := by omega
    rw [widen_of_normal he h, Binary64.isNegative_ofFields _ hfield hshifted]
    have hwide := Binary64.exponentField_ofFields x.isNegative hfield hshifted
    refine ⟨rfl, by omega, ?_⟩
    rw [Binary64.steps_of_normal hwide, Binary64.fractionField_ofFields _ hfield hshifted, steps_of_normal he]
    have hsignificand : 2 ^ 52 + x.fractionField * 2 ^ 29 = (2 ^ 23 + x.fractionField) * 2 ^ 29 := by omega
    have hexponents : 29 + (e + 896) = e + 925 := by omega
    rw [hsignificand, Nat.mul_assoc, ← Nat.pow_add, hexponents]
  | zero =>
    rw [steps_of_subnormal he]
    rcases Nat.eq_zero_or_pos x.fractionField with hzero | hpos
    · have hfield : 0 < 2048 := by decide
      have hnothing : 0 < 2 ^ 52 := by decide
      rw [widen_of_zero he hzero, hzero, Nat.zero_mul]
      have hwide := Binary64.exponentField_ofFields x.isNegative hfield hnothing
      refine ⟨Binary64.isNegative_ofFields _ hfield hnothing, by omega, ?_⟩
      rw [Binary64.steps_of_subnormal hwide, Binary64.fractionField_ofFields _ hfield hnothing]
    · have hne : x.fractionField ≠ 0 := Nat.ne_of_gt hpos
      obtain ⟨hlog, hshifted, hsignificand⟩ := shifted_fraction hne hfraction
      have hfield : 874 + x.fractionField.log2 < 2048 := by omega
      have hexponents : 52 - x.fractionField.log2 + (873 + x.fractionField.log2) = 925 := by omega
      rw [widen_of_subnormal he hne]
      have hwide : (Binary64.ofFields x.isNegative (874 + x.fractionField.log2)
          ((x.fractionField - 2 ^ x.fractionField.log2) * 2 ^ (52 - x.fractionField.log2))).exponentField
            = 873 + x.fractionField.log2 + 1 := by
        rw [Binary64.exponentField_ofFields _ hfield hshifted]
        omega
      refine ⟨Binary64.isNegative_ofFields _ hfield hshifted, by omega, ?_⟩
      rw [Binary64.steps_of_normal hwide, Binary64.fractionField_ofFields _ hfield hshifted, hsignificand,
        Nat.mul_assoc, ← Nat.pow_add]
      exact congrArg (x.fractionField * 2 ^ ·) hexponents

/-- A single widens to a double that stands for the same. -/
theorem widens_widen (x : Binary32) : x.Widens x.widen := by
  by_cases h : x.exponentField = 255
  · have hfield : 2047 < 2048 := by decide
    have hshifted : x.fractionField * 2 ^ 29 < 2 ^ 52 := by
      have hfraction := x.fractionField_lt
      omega
    have hexponent := Binary64.exponentField_ofFields x.isNegative hfield hshifted
    have hfraction := Binary64.fractionField_ofFields x.isNegative hfield hshifted
    rw [widen_of_special h]
    refine ⟨Binary64.isNegative_ofFields _ hfield hshifted, ?finite, ?infinite, ?nan⟩
    case finite => simp [isFinite, h]
    case infinite =>
      intro hinfinite
      have hzero : x.fractionField = 0 := by simpa [isInfinite, h] using hinfinite
      rw [Binary64.isInfinite, hexponent, hfraction, hzero]
      simp
    case nan =>
      intro hnan
      have hne : x.fractionField ≠ 0 := by simpa [isNaN, h] using hnan
      refine ⟨?_, hfraction⟩
      rw [Binary64.isNaN, hexponent, hfraction]
      have hwide : x.fractionField * 2 ^ 29 ≠ 0 := by omega
      simpa using hwide
  · obtain ⟨hsign, hfinite, hsteps⟩ := widen_of_finite h
    refine ⟨hsign, ?_, ?_, ?_⟩
    · exact fun _ => ⟨decide_eq_true hfinite, hsteps⟩
    · simp [isInfinite, h]
    · simp [isNaN, h]

/-- No two doubles stand for the same as one single. -/
theorem Widens.unique {y z : Binary64} (hy : x.Widens y) (hz : x.Widens z) : y = z := by
  have hsign : y.isNegative = z.isNegative := hy.sign_eq.trans hz.sign_eq.symm
  by_cases hfinite : x.isFinite
  · have hsteps := (hy.finite hfinite).2.trans (hz.finite hfinite).2.symm
    obtain ⟨hexponent, hfraction⟩ := Binary64.fields_eq_of_steps hsteps
    exact Binary64.ext_fields hsign hexponent hfraction
  · have hspecial : x.exponentField = 255 := by simpa [isFinite] using hfinite
    by_cases hzero : x.fractionField = 0
    · have hinfinite : x.isInfinite := by simp [isInfinite, hspecial, hzero]
      have hyi := hy.infinite hinfinite
      have hzi := hz.infinite hinfinite
      simp only [Binary64.isInfinite, Bool.and_eq_true, decide_eq_true_eq] at hyi hzi
      exact Binary64.ext_fields hsign (hyi.1.trans hzi.1.symm) (hyi.2.trans hzi.2.symm)
    · have hnan : x.isNaN := by simp [isNaN, hspecial, hzero]
      obtain ⟨hyn, hyf⟩ := hy.nan hnan
      obtain ⟨hzn, hzf⟩ := hz.nan hnan
      simp only [Binary64.isNaN, Bool.and_eq_true, decide_eq_true_eq] at hyn hzn
      exact Binary64.ext_fields hsign (hyn.1.trans hzn.1.symm) (hyf.trans hzf.symm)

theorem widens_iff {y : Binary64} : x.Widens y ↔ y = x.widen := by
  refine ⟨fun h => h.unique x.widens_widen, ?_⟩
  rintro rfl
  exact x.widens_widen

/-- Three halves, and the least single above zero. -/
example : Widens ⟨0x3fc00000⟩ ⟨0x3ff8000000000000⟩ ∧ Widens ⟨1⟩ ⟨0x36a0000000000000⟩ := by
  simp only [widens_iff]
  decide

end Binary32
end MessagePack
