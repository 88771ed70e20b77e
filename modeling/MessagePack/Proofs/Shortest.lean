import MessagePack.Proofs.Rounding
/-
  Shortest decimals. The interval of a double holds just the decimals that are read as that double. The search for
  the coarsest grid with a point inside starts above all of them and goes down to a grid that has the double itself
  as a point; so it finds the coarsest grid of all, and on it the point next to the double.

  What is proved:
    1. `RoundingInterval.contains_of_iff`: the interval of a double holds the decimals that are read as it.
    2. `RoundingInterval.exists_search`: a search that goes down to a point finds the first grid that has one.
    3. `Binary64.roundsTo_shortest`: the shortest decimal of a finite double is read as that double.
    4. `Binary64.shortest_coarsest`, `Binary64.shortest_nearest`: no decimal with a greater exponent is, and none with
       the same exponent is nearer.
-/
namespace MessagePack
namespace RoundingInterval

/-! ## Grids -/

section
variable (i : RoundingInterval) (k : ℤ)

theorem zpow_mul_toNat {a : ℚ} (ha : a ≠ 0) (e : ℤ) : a ^ e * a ^ (-e).toNat = a ^ e.toNat := by
  rw [← zpow_natCast, ← zpow_natCast, ← zpow_add₀ ha]
  congr 1
  omega

/-- What a unit of the interval and a step of the grid are multiplied with, to make whole numbers of both. -/
theorem exists_factor : ∃ factor : ℚ, 0 < factor ∧ ((i.scale k).1 : ℚ) = 2 ^ i.exponent * factor ∧
    ((i.scale k).2 : ℚ) = 10 ^ k * factor := by
  refine ⟨2 ^ (-i.exponent).toNat * 10 ^ (-k).toNat, by positivity, ?_, ?_⟩
  · have hpower := zpow_mul_toNat (a := 2) (by norm_num) i.exponent
    simp only [scale, Nat.pow_eq]
    push_cast
    rw [← hpower, mul_assoc]
  · have hpower := zpow_mul_toNat (a := 10) (by norm_num) k
    simp only [scale, Nat.pow_eq]
    push_cast
    rw [← hpower]
    ring

/-- Units of the interval against steps of the grid, as whole numbers and as what they stand for. -/
theorem le_scaled_iff (m c : ℕ) :
    m * (i.scale k).1 ≤ c * (i.scale k).2 ↔ (m : ℚ) * 2 ^ i.exponent ≤ c * 10 ^ k := by
  obtain ⟨factor, hfactor, hnum, hden⟩ := i.exists_factor k
  rw [← mul_le_mul_iff_of_pos_right hfactor, mul_assoc, mul_assoc, ← hnum, ← hden]
  norm_cast

theorem scaled_le_iff (m c : ℕ) :
    c * (i.scale k).2 ≤ m * (i.scale k).1 ↔ (c : ℚ) * 10 ^ k ≤ m * 2 ^ i.exponent := by
  obtain ⟨factor, hfactor, hnum, hden⟩ := i.exists_factor k
  rw [← mul_le_mul_iff_of_pos_right hfactor, mul_assoc, mul_assoc, ← hnum, ← hden]
  norm_cast

theorem lt_scaled_iff (m c : ℕ) :
    m * (i.scale k).1 < c * (i.scale k).2 ↔ (m : ℚ) * 2 ^ i.exponent < c * 10 ^ k := by
  rw [← not_le, ← not_le, scaled_le_iff]

theorem scaled_lt_iff (m c : ℕ) :
    c * (i.scale k).2 < m * (i.scale k).1 ↔ (c : ℚ) * 10 ^ k < m * 2 ^ i.exponent := by
  rw [← not_le, ← not_le, le_scaled_iff]

/-- An interval holds the grid points between its ends, and those at its ends if they belong to it. -/
theorem contains_iff (c : ℕ) : i.contains k c ↔
    (i.low : ℚ) * 2 ^ i.exponent ≤ c * 10 ^ k ∧ (c : ℚ) * 10 ^ k ≤ i.high * 2 ^ i.exponent ∧
      (i.closed ∨ (i.low : ℚ) * 2 ^ i.exponent < c * 10 ^ k ∧ (c : ℚ) * 10 ^ k < i.high * 2 ^ i.exponent) := by
  unfold contains
  cases i.closed with
  | true => simp [le_scaled_iff, scaled_le_iff]
  | false =>
    simp only [Bool.false_eq_true, if_false, Bool.and_eq_true, decide_eq_true_eq, lt_scaled_iff, scaled_lt_iff,
      false_or]
    exact ⟨fun h => ⟨h.1.le, h.2.le, h⟩, fun h => h.2.2⟩

/-- The last grid point that is not above the middle. -/
def lower : ℕ := i.mid * (i.scale k).1 / (i.scale k).2

theorem lower_le : (i.lower k : ℚ) * 10 ^ k ≤ i.mid * 2 ^ i.exponent :=
  (i.scaled_le_iff k _ _).1 (Nat.div_mul_le_self _ _)

theorem lt_lower_succ : (i.mid : ℚ) * 2 ^ i.exponent < (i.lower k + 1 : ℕ) * 10 ^ k := by
  have hden : 0 < (i.scale k).2 := by
    obtain ⟨factor, hfactor, _, hden⟩ := i.exists_factor k
    have hpos := mul_pos (ten_zpow_pos k) hfactor
    rw [← hden] at hpos
    exact_mod_cast hpos
  refine (i.lt_scaled_iff k _ _).1 ?_
  rw [Nat.mul_comm (i.lower k + 1)]
  exact Nat.lt_mul_div_succ _ hden

end

variable {i : RoundingInterval} {k : ℤ} {c c' : ℕ}

/-- What is found on a grid is inside, next to the middle, and nearer to it than the point on the other side. -/
theorem cases_of_nearestOnGrid (h : i.nearestOnGrid k = some c) : i.contains k c ∧
    (c = i.lower k ∧ (i.contains k (c + 1) → (2 * i.mid : ℕ) * (2 : ℚ) ^ i.exponent < (2 * c + 1 : ℕ) * 10 ^ k) ∨
      c = i.lower k + 1 ∧
        (i.contains k (i.lower k) → (2 * i.lower k + 1 : ℕ) * (10 : ℚ) ^ k ≤ (2 * i.mid : ℕ) * 2 ^ i.exponent)) := by
  unfold nearestOnGrid at h
  simp only at h
  split at h
  case h_1 hlow hhigh =>
    cases h
    split
    case isTrue hless =>
      rw [← Nat.mul_assoc] at hless
      exact ⟨hlow, .inl ⟨rfl, fun _ => (i.lt_scaled_iff k _ _).1 hless⟩⟩
    case isFalse hge =>
      rw [← Nat.mul_assoc, Nat.not_lt] at hge
      exact ⟨hhigh, .inr ⟨rfl, fun _ => (i.scaled_le_iff k _ _).1 hge⟩⟩
  case h_2 hlow hhigh =>
    cases h
    exact ⟨hlow, .inl ⟨rfl, fun hno => absurd hno (Bool.eq_false_iff.1 hhigh)⟩⟩
  case h_3 hlow hhigh =>
    cases h
    exact ⟨hhigh, .inr ⟨rfl, fun hno => absurd hno (Bool.eq_false_iff.1 hlow)⟩⟩
  case h_4 => cases h

/-- The middle is inside the interval. -/
structure Centred (i : RoundingInterval) : Prop where
  low_lt : i.low < i.mid
  lt_high : i.mid < i.high

theorem grid_le (h : c ≤ c') : (c : ℚ) * 10 ^ k ≤ c' * 10 ^ k :=
  mul_le_mul_of_nonneg_right (by exact_mod_cast h) (ten_zpow_pos k).le

theorem contains_of_le (hi : i.Centred) (h : i.contains k c) (hle : c ≤ c')
    (hmid : (c' : ℚ) * 10 ^ k ≤ i.mid * 2 ^ i.exponent) : i.contains k c' := by
  have hgrid : (c : ℚ) * 10 ^ k ≤ c' * 10 ^ k := grid_le hle
  have hhigh : (i.mid : ℚ) * 2 ^ i.exponent < i.high * 2 ^ i.exponent :=
    mul_lt_mul_of_pos_right (by exact_mod_cast hi.lt_high) (two_zpow_pos _)
  obtain ⟨hlow, _, hends⟩ := (i.contains_iff k c).1 h
  refine (i.contains_iff k c').2 ⟨by linarith, by linarith, hends.imp_right ?_⟩
  rintro ⟨hlow, _⟩
  exact ⟨by linarith, by linarith⟩

theorem contains_of_ge (hi : i.Centred) (h : i.contains k c) (hle : c' ≤ c)
    (hmid : (i.mid : ℚ) * 2 ^ i.exponent ≤ c' * 10 ^ k) : i.contains k c' := by
  have hgrid : (c' : ℚ) * 10 ^ k ≤ c * 10 ^ k := grid_le hle
  have hlow : (i.low : ℚ) * 2 ^ i.exponent < i.mid * 2 ^ i.exponent :=
    mul_lt_mul_of_pos_right (by exact_mod_cast hi.low_lt) (two_zpow_pos _)
  obtain ⟨_, hhigh, hends⟩ := (i.contains_iff k c).1 h
  refine (i.contains_iff k c').2 ⟨by linarith, by linarith, hends.imp_right ?_⟩
  rintro ⟨_, hhigh⟩
  exact ⟨by linarith, by linarith⟩

/-- If an interval holds any point of a grid, it holds one next to its middle. -/
theorem isSome_nearestOnGrid (hi : i.Centred) (h : i.contains k c) : (i.nearestOnGrid k).isSome := by
  have hinside : i.contains k (i.lower k) ∨ i.contains k (i.lower k + 1) := by
    rcases Nat.lt_or_ge (i.lower k) c with habove | hbelow
    · exact .inr (contains_of_ge hi h habove (i.lt_lower_succ k).le)
    · exact .inl (contains_of_le hi h hbelow (i.lower_le k))
  unfold nearestOnGrid
  unfold lower at hinside
  simp only
  split
  case h_4 hno hno' => simp [hno, hno'] at hinside
  all_goals rfl

/-- The point of a grid that is found is the one next to the middle. -/
theorem nearest_of_nearestOnGrid (hi : i.Centred) (h : i.nearestOnGrid k = some c) (hc' : i.contains k c') :
    |(c : ℚ) * 10 ^ k - i.mid * 2 ^ i.exponent| ≤ |(c' : ℚ) * 10 ^ k - i.mid * 2 ^ i.exponent| := by
  have hlower := i.lower_le k
  have hupper := i.lt_lower_succ k
  have hpos := ten_zpow_pos k
  obtain ⟨_, ⟨rfl, hother⟩ | ⟨rfl, hother⟩⟩ := cases_of_nearestOnGrid h
  · rw [abs_of_nonpos (by linarith)]
    rcases Nat.lt_or_ge (i.lower k) c' with habove | hbelow
    · have hgrid : ((i.lower k + 1 : ℕ) : ℚ) * 10 ^ k ≤ c' * 10 ^ k := grid_le habove
      have hhalfway := hother (contains_of_ge hi hc' habove hupper.le)
      rw [abs_of_pos (by linarith)]
      push_cast at hhalfway hgrid
      linarith
    · have hgrid : (c' : ℚ) * 10 ^ k ≤ i.lower k * 10 ^ k := grid_le hbelow
      rw [abs_of_nonpos (by linarith)]
      linarith
  · rw [abs_of_pos (by linarith)]
    rcases Nat.lt_or_ge (i.lower k) c' with habove | hbelow
    · have hgrid : ((i.lower k + 1 : ℕ) : ℚ) * 10 ^ k ≤ c' * 10 ^ k := grid_le habove
      rw [abs_of_pos (by linarith)]
      linarith
    · have hgrid : (c' : ℚ) * 10 ^ k ≤ i.lower k * 10 ^ k := grid_le hbelow
      have hhalfway := hother (contains_of_le hi hc' hbelow hlower)
      rw [abs_of_nonpos (by linarith)]
      push_cast at hhalfway ⊢
      linarith

/-! ## The search -/

/-- A search that goes down to a grid with a point in the interval ends on the first such grid. -/
theorem exists_search (finer : ℕ) (h : (i.nearestOnGrid (k - finer)).isSome) :
    ∃ c' k', i.search finer k = ⟨c', k'⟩ ∧ i.nearestOnGrid k' = some c' ∧
      ∀ j, k' < j → j ≤ k → i.nearestOnGrid j = none := by
  induction finer generalizing k with
  | zero =>
    rw [Nat.cast_zero, sub_zero] at h
    obtain ⟨c, hc⟩ := Option.isSome_iff_exists.1 h
    exact ⟨c, k, by rw [search, hc]; rfl, hc, fun j hless hle => absurd hle (not_le_of_gt hless)⟩
  | succ finer ih =>
    cases hk : i.nearestOnGrid k with
    | some c => exact ⟨c, k, by rw [search, hk], hk, fun j hless hle => absurd hle (not_le_of_gt hless)⟩
    | none =>
      have hdown : k - 1 - finer = k - (finer + 1 : ℕ) := by omega
      obtain ⟨c, k', hsearch, hgrid, hnone⟩ := ih (k := k - 1) (hdown ▸ h)
      refine ⟨c, k', by rw [search, hk]; exact hsearch, hgrid, ?_⟩
      intro j hless hle
      rcases eq_or_lt_of_le hle with rfl | hbelow
      · exact hk
      · exact hnone j hless (by omega)

/-! ## The interval of a double -/

section
variable {x : Binary64}

theorem exponent_of (x : Binary64) : (of x).exponent = x.magnitude.exponent - 2 := rfl

theorem mid_of (x : Binary64) : ((of x).mid : ℚ) * 2 ^ (of x).exponent = x.value := by
  have hvalue : x.value = x.magnitude.significand * 2 ^ x.magnitude.exponent := rfl
  rw [exponent_of, hvalue, two_zpow_eq x.magnitude.exponent, two_zpow_eq (x.magnitude.exponent - 1)]
  show ((4 * x.magnitude.significand : ℕ) : ℚ) * _ = _
  push_cast
  ring_nf

theorem high_of (x : Binary64) : ((of x).high : ℚ) * 2 ^ (of x).exponent = x.value + x.halfUp := by
  have hvalue : x.value = x.magnitude.significand * 2 ^ x.magnitude.exponent := rfl
  rw [exponent_of, hvalue, Binary64.halfUp, two_zpow_eq x.magnitude.exponent,
    two_zpow_eq (x.magnitude.exponent - 1)]
  show ((4 * x.magnitude.significand + 2 : ℕ) : ℚ) * _ = _
  push_cast
  ring_nf

variable (hzero : ¬ x.isZero)
include hzero

theorem low_of : ((of x).low : ℚ) * 2 ^ (of x).exponent = x.value - x.halfDown := by
  have hpos := Binary64.significand_pos hzero
  have hvalue : x.value = x.magnitude.significand * 2 ^ x.magnitude.exponent := rfl
  have hlow : (of x).low = 4 * x.magnitude.significand - if x.StartsBinade then 1 else 2 := rfl
  rw [exponent_of, hvalue, hlow, Binary64.halfDown, two_zpow_eq x.magnitude.exponent,
    two_zpow_eq (x.magnitude.exponent - 1)]
  split
  · rw [Nat.cast_sub (by omega)]
    push_cast
    ring_nf
  · rw [Nat.cast_sub (by omega)]
    push_cast
    ring_nf

theorem centred_of : (of x).Centred := by
  have hpos := Binary64.significand_pos hzero
  constructor
  · show 4 * x.magnitude.significand - _ < 4 * x.magnitude.significand
    split <;> omega
  · show 4 * x.magnitude.significand < 4 * x.magnitude.significand + 2
    omega

/-- The interval of a double holds the decimals that are read as it. -/
theorem contains_of_iff (hfinite : x.isFinite) : (of x).contains k c ↔ (⟨c, k⟩ : Decimal).RoundsTo x := by
  have hclosed : (of x).closed = true ↔ x.magnitude.significand % 2 = 0 := decide_eq_true_iff
  rw [Decimal.roundsTo_iff hfinite hzero, contains_iff, low_of hzero, high_of, hclosed]
  rfl

end

end RoundingInterval

/-! ## Powers -/

/-- Powers of two below powers of ten, by 2^53 < 10^16 and 10^3 < 2^10. -/
theorem two_zpow_le_ten_zpow {p q : ℤ} (hpos : 0 ≤ p → 16 * p ≤ 53 * q) (hneg : p < 0 → 3 * p ≤ 10 * q) :
    (2 : ℚ) ^ p ≤ 10 ^ q := by
  rcases lt_or_ge p 0 with hp | hp
  · obtain ⟨a, rfl⟩ := Int.exists_eq_neg_ofNat hp.le
    have hpowers : ((2 : ℚ) ^ (-a : ℤ)) ^ 10 ≤ (10 ^ q) ^ 10 :=
      calc ((2 : ℚ) ^ (-a : ℤ)) ^ 10
          = ((2 ^ 10) ^ a)⁻¹ := by rw [zpow_neg, zpow_natCast, inv_pow, ← pow_mul, ← pow_mul, Nat.mul_comm]
        _ ≤ ((10 ^ 3) ^ a)⁻¹ := inv_anti₀ (by positivity) (pow_le_pow_left₀ (by norm_num) (by norm_num) a)
        _ = 10 ^ (3 * (-a : ℤ)) := by rw [mul_neg, zpow_neg, zpow_mul, zpow_natCast]; norm_cast
        _ ≤ 10 ^ (q * 10) := zpow_le_zpow_right₀ (by norm_num) (by have := hneg hp; omega)
        _ = (10 ^ q) ^ 10 := by rw [zpow_mul]; norm_cast
    exact (pow_le_pow_iff_left₀ (two_zpow_pos _).le (ten_zpow_pos _).le (by norm_num)).1 hpowers
  · obtain ⟨a, rfl⟩ := Int.eq_ofNat_of_zero_le hp
    have hpowers : ((2 : ℚ) ^ (a : ℤ)) ^ 53 ≤ (10 ^ q) ^ 53 :=
      calc ((2 : ℚ) ^ (a : ℤ)) ^ 53
          = (2 ^ 53) ^ a := by rw [zpow_natCast, ← pow_mul, ← pow_mul, Nat.mul_comm]
        _ ≤ (10 ^ 16) ^ a := pow_le_pow_left₀ (by norm_num) (by norm_num) a
        _ = 10 ^ (16 * (a : ℤ)) := by rw [zpow_mul, zpow_natCast]; norm_cast
        _ ≤ 10 ^ (q * 53) := zpow_le_zpow_right₀ (by norm_num) (by have := hpos hp; omega)
        _ = (10 ^ q) ^ 53 := by rw [zpow_mul]; norm_cast
    exact (pow_le_pow_iff_left₀ (two_zpow_pos _).le (ten_zpow_pos _).le (by norm_num)).1 hpowers

/-! ## The shortest decimal -/

namespace Binary64
variable {x : Binary64}

/-- The grid on which the search starts. -/
def firstGrid (x : Binary64) : ℤ :=
  ((x.magnitude.significand.log2 : ℤ) + x.magnitude.exponent + 2) * 30103 / 100000 + 1

/-- The grid on which it ends at the latest. -/
def lastGrid (x : Binary64) : ℤ := min 0 x.magnitude.exponent

theorem shortest_eq (hzero : ¬ x.isZero) :
    x.shortest = (RoundingInterval.of x).search (x.firstGrid - x.lastGrid).toNat x.firstGrid := by
  rw [shortest, if_neg hzero]
  rfl

theorem lastGrid_le (x : Binary64) : x.lastGrid ≤ x.firstGrid := by
  unfold lastGrid firstGrid
  omega

/-- A finite double is a point of the last grid. -/
theorem exists_value_eq (x : Binary64) : ∃ c : ℕ, (c : ℚ) * 10 ^ x.lastGrid = x.value := by
  have hvalue : x.value = x.magnitude.significand * 2 ^ x.magnitude.exponent := rfl
  rw [hvalue, lastGrid]
  rcases le_total 0 x.magnitude.exponent with hpos | hneg
  · obtain ⟨n, hn⟩ := Int.eq_ofNat_of_zero_le hpos
    refine ⟨x.magnitude.significand * 2 ^ n, ?_⟩
    rw [min_eq_left hpos, hn, zpow_natCast]
    push_cast
    ring
  · obtain ⟨n, hn⟩ := Int.exists_eq_neg_ofNat hneg
    refine ⟨x.magnitude.significand * 5 ^ n, ?_⟩
    have hten : (10 : ℚ) = 5 * 2 := by norm_num
    rw [min_eq_right hneg, hn, zpow_neg, zpow_neg, zpow_natCast, zpow_natCast, hten, mul_pow, mul_inv]
    push_cast
    rw [mul_assoc, mul_inv_cancel_left₀ (by positivity)]

section
variable (hfinite : x.isFinite) (hzero : ¬ x.isZero)
include hfinite hzero

/-- What is read as a double is not above the next power of two. -/
theorem value_lt_of_roundsTo {d : Decimal} (h : d.RoundsTo x) :
    d.value < 2 ^ ((x.magnitude.significand.log2 : ℤ) + 1 + x.magnitude.exponent) := by
  obtain ⟨_, hhigh, _⟩ := (Decimal.roundsTo_iff hfinite hzero).1 h
  have hvalue : x.value = x.magnitude.significand * 2 ^ x.magnitude.exponent := rfl
  have hstep := x.two_mul_halfUp
  have hpos := x.halfUp_pos
  have hlog : (x.magnitude.significand : ℚ) + 1 ≤ 2 ^ (x.magnitude.significand.log2 + 1) := by
    exact_mod_cast Nat.succ_le_of_lt Nat.lt_log2_self
  have hproduct := mul_le_mul_of_nonneg_right hlog (two_zpow_pos x.magnitude.exponent).le
  have hpower : (2 : ℚ) ^ ((x.magnitude.significand.log2 : ℤ) + 1) = 2 ^ (x.magnitude.significand.log2 + 1) := by
    norm_cast
  rw [zpow_add₀ (by norm_num), hpower]
  linarith

theorem value_pos_of_roundsTo {d : Decimal} (h : d.RoundsTo x) : 0 < d.value := by
  obtain ⟨hlow, _, _⟩ := (Decimal.roundsTo_iff hfinite hzero).1 h
  obtain ⟨below, _, hbelow⟩ := exists_below hfinite hzero
  have hpos := x.halfDown_pos
  have hnonneg : 0 ≤ below.value := mul_nonneg (Nat.cast_nonneg _) (two_zpow_pos _).le
  linarith

/-- No decimal above the first grid is read as a double other than zero. -/
theorem exponent_le_firstGrid {d : Decimal} (h : d.RoundsTo x) : d.exponent ≤ x.firstGrid := by
  by_contra habove
  have hvalue := value_lt_of_roundsTo hfinite hzero h
  have hpos := value_pos_of_roundsTo hfinite hzero h
  have hgrid : (10 : ℚ) ^ d.exponent ≤ d.value := by
    have hdigits : 1 ≤ d.digits := by
      rcases Nat.eq_zero_or_pos d.digits with hnone | hsome
      · simp [Decimal.value, hnone] at hpos
      · exact hsome
    have hcast : (1 : ℚ) ≤ d.digits := by exact_mod_cast hdigits
    have hproduct := mul_le_mul_of_nonneg_right hcast (ten_zpow_pos d.exponent).le
    rwa [one_mul] at hproduct
  obtain ⟨hm, hleast, _⟩ := x.magnitude_bounds
  have hmost := exponent_le_of_finite hfinite
  have hlog : x.magnitude.significand.log2 < 53 := (Nat.log2_lt (Nat.ne_of_gt (significand_pos hzero))).2 hm
  have hpower : (2 : ℚ) ^ ((x.magnitude.significand.log2 : ℤ) + 1 + x.magnitude.exponent) ≤ 10 ^ d.exponent := by
    unfold firstGrid at habove
    refine two_zpow_le_ten_zpow ?_ ?_
    · intro _
      omega
    · intro _
      omega
  linarith

/-- What the search for the shortest decimal finds, and where it does not find any. -/
theorem exists_shortest : ∃ c k, x.shortest = ⟨c, k⟩ ∧ (RoundingInterval.of x).nearestOnGrid k = some c ∧
    ∀ j, k < j → j ≤ x.firstGrid → (RoundingInterval.of x).nearestOnGrid j = none := by
  obtain ⟨c, hc⟩ := x.exists_value_eq
  have hrounds : (⟨c, x.lastGrid⟩ : Decimal).RoundsTo x := by
    have hvalue : (⟨c, x.lastGrid⟩ : Decimal).value = x.value := hc
    have hdown := x.halfDown_pos
    have hup := x.halfUp_pos
    exact (Decimal.roundsTo_iff hfinite hzero).2
      ⟨by linarith, by linarith, .inr ⟨by linarith, by linarith⟩⟩
  have hinside := (RoundingInterval.contains_of_iff hzero hfinite).2 hrounds
  have hsome := RoundingInterval.isSome_nearestOnGrid (RoundingInterval.centred_of hzero) hinside
  have hlast : x.firstGrid - ((x.firstGrid - x.lastGrid).toNat : ℕ) = x.lastGrid := by
    have hle := x.lastGrid_le
    omega
  rw [shortest_eq hzero]
  exact RoundingInterval.exists_search _ (by rw [hlast]; exact hsome)

/-- No decimal with a greater exponent is read as the double. -/
theorem shortest_coarsest {d : Decimal} (h : d.RoundsTo x) : d.exponent ≤ x.shortest.exponent := by
  obtain ⟨c, k, hshortest, _, hnone⟩ := exists_shortest hfinite hzero
  rw [hshortest]
  by_contra hbelow
  have hinside := (RoundingInterval.contains_of_iff hzero hfinite).2 h
  have hsome := RoundingInterval.isSome_nearestOnGrid (RoundingInterval.centred_of hzero) hinside
  rw [hnone _ (not_le.1 hbelow) (exponent_le_firstGrid hfinite hzero h)] at hsome
  cases hsome

/-- No decimal with the same exponent is nearer to the double. -/
theorem shortest_nearest {d : Decimal} (h : d.RoundsTo x) (hexponent : d.exponent = x.shortest.exponent) :
    |x.shortest.value - x.value| ≤ |d.value - x.value| := by
  obtain ⟨c, k, hshortest, hfound, _⟩ := exists_shortest hfinite hzero
  obtain ⟨c', k'⟩ := d
  rw [hshortest] at hexponent ⊢
  obtain rfl : k' = k := hexponent
  have hinside := (RoundingInterval.contains_of_iff hzero hfinite).2 h
  rw [← RoundingInterval.mid_of x]
  exact RoundingInterval.nearest_of_nearestOnGrid (RoundingInterval.centred_of hzero) hfound hinside

end

/-- The shortest decimal of a finite double is read as that double. -/
theorem roundsTo_shortest (hfinite : x.isFinite) : x.shortest.RoundsTo x := by
  by_cases hzero : x.isZero
  · have hfields : x.exponentField = 0 ∧ x.fractionField = 0 := by simpa [isZero] using hzero
    have hmagnitude : x.magnitude = ⟨0, -1074⟩ := by rw [magnitude, if_pos hfields.1, hfields.2]
    have hvalue : x.value = 0 := by simp [value, Dyadic.value, hmagnitude]
    have hshortest : x.shortest.value = 0 := by simp [shortest, hzero, Decimal.value]
    have hdown := x.halfDown_pos
    have hup := x.halfUp_pos
    exact Decimal.roundsTo_of_between hfinite (by linarith) (by linarith) (.inl (by simp [hmagnitude]))
  · obtain ⟨c, k, hshortest, hfound, _⟩ := exists_shortest hfinite hzero
    rw [hshortest]
    exact (RoundingInterval.contains_of_iff hzero hfinite).1 (RoundingInterval.cases_of_nearestOnGrid hfound).1

/-- A tenth, and the greatest double. -/
example : shortest ⟨0x3fb999999999999a⟩ = ⟨1, -1⟩ ∧
    shortest ⟨0x7fefffffffffffff⟩ = ⟨17976931348623157, 292⟩ := by decide +kernel

end Binary64
end MessagePack
