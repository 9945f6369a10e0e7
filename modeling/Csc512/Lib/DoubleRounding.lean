import Csc512.Lib.Double
import Mathlib.Data.Nat.Size
import Mathlib.Algebra.Order.Field.Power
import Mathlib.Tactic.Linarith
import Mathlib.Tactic.Positivity
import Mathlib.Tactic.Ring
import Mathlib.Tactic.FieldSimp

/-!
# Rounding to doubles

What the nearest double of a rational is, without its zeros and infinities: a multiple of the unit
in the last place, which is a power of two that depends on the size of the rational alone.

## Main results

* `exists_exponent` — the power of two below a rational gives its last place
* `roundHalfEven_lt_iff` — which rationals are rounded below an integer
* `nearest_neg` — rounding keeps signs apart
-/

namespace Csc512

/-! ### Powers of two -/

theorem powTwo_eq (k : ℤ) : powTwo k = (2 : ℚ) ^ k := by
  unfold powTwo
  split_ifs with hk
  · obtain ⟨n, rfl⟩ := Int.eq_ofNat_of_zero_le hk
    simp
  · obtain ⟨n, hn⟩ := Int.eq_ofNat_of_zero_le (show 0 ≤ -k by omega)
    obtain rfl : k = -(n : ℤ) := by omega
    rw [Rat.mkRat_eq_div]
    simp

theorem powTwo_natCast (k : ℕ) : powTwo k = ((2 ^ k : ℕ) : ℚ) := by
  rw [powTwo_eq, zpow_natCast]
  push_cast
  rfl

theorem powTwo_pos (k : ℤ) : 0 < powTwo k := by
  rw [powTwo_eq]
  positivity

/-- The last place of a rational other than zero is given by the power of two below it. -/
theorem exists_exponent {q : ℚ} (hq : q ≠ 0) : ∃ e : ℤ, (2 : ℚ) ^ e ≤ |q| ∧ |q| < (2 : ℚ) ^ (e + 1) ∧
    lastPlace q = max (e - 52) (-1074) := by
  have hnum : q.num.natAbs ≠ 0 := by simpa using hq
  have hdenPos : (0 : ℚ) < q.den := by exact_mod_cast q.den_pos
  have habs : |q| = (q.num.natAbs : ℚ) / q.den := by
    conv_lhs => rw [← Rat.num_div_den q, abs_div, Nat.abs_cast]
    rw [Nat.cast_natAbs, Int.cast_abs]
  have hnum1 : ((2 : ℚ) ^ (Nat.log2 q.num.natAbs)) ≤ q.num.natAbs := by
    exact_mod_cast Nat.log2_self_le hnum
  have hnum2 : (q.num.natAbs : ℚ) < 2 ^ (Nat.log2 q.num.natAbs + 1) := by
    exact_mod_cast Nat.lt_log2_self
  have hden1 : ((2 : ℚ) ^ (Nat.log2 q.den)) ≤ q.den := by
    exact_mod_cast Nat.log2_self_le q.den_nz
  have hden2 : (q.den : ℚ) < 2 ^ (Nat.log2 q.den + 1) := by
    exact_mod_cast Nat.lt_log2_self
  set m := Nat.log2 q.num.natAbs
  set d := Nat.log2 q.den
  have hupper : |q| < (2 : ℚ) ^ ((m : ℤ) - d + 1) := by
    have hpow : (2 : ℚ) ^ ((m : ℤ) - d + 1) = 2 ^ (m + 1) / 2 ^ d := by
      rw [show (m : ℤ) - d + 1 = ((m + 1 : ℕ) : ℤ) - (d : ℕ) by push_cast; ring,
        zpow_sub₀ two_ne_zero, zpow_natCast, zpow_natCast]
    rw [habs, hpow, div_lt_div_iff₀ hdenPos (by positivity)]
    exact mul_lt_mul hnum2 hden1 (by positivity) (by positivity)
  have hlower : (2 : ℚ) ^ ((m : ℤ) - d - 1) ≤ |q| := by
    have hpow : (2 : ℚ) ^ ((m : ℤ) - d - 1) = 2 ^ m / 2 ^ (d + 1) := by
      rw [show (m : ℤ) - d - 1 = (m : ℕ) - ((d + 1 : ℕ) : ℤ) by push_cast; ring,
        zpow_sub₀ two_ne_zero, zpow_natCast, zpow_natCast]
    rw [habs, hpow, div_le_div_iff₀ (by positivity) hdenPos]
    exact mul_le_mul hnum1 hden2.le hdenPos.le (by positivity)
  unfold lastPlace
  simp only [powTwo_eq]
  by_cases hk : (2 : ℚ) ^ ((m : ℤ) - d) ≤ |q|
  · exact ⟨(m : ℤ) - d, hk, hupper, by rw [if_pos hk]⟩
  · refine ⟨(m : ℤ) - d - 1, hlower, ?_, by rw [if_neg hk]⟩
    rw [sub_add_cancel]
    exact not_le.mp hk

/-- The power of two below a rational is the only one. -/
theorem lastPlace_of_bounds {q : ℚ} {k : ℤ} (hlower : (2 : ℚ) ^ k ≤ |q|)
    (hupper : |q| < (2 : ℚ) ^ (k + 1)) : lastPlace q = max (k - 52) (-1074) := by
  have hq : q ≠ 0 := by
    rintro rfl
    rw [abs_zero] at hlower
    exact absurd hlower (not_le.mpr (by positivity))
  obtain ⟨e, he, he', hplace⟩ := exists_exponent hq
  have hlt : e < k + 1 := (zpow_lt_zpow_iff_right₀ one_lt_two).mp (he.trans_lt hupper)
  have hlt' : k < e + 1 := (zpow_lt_zpow_iff_right₀ one_lt_two).mp (hlower.trans_lt he')
  obtain rfl : e = k := by omega
  exact hplace

theorem lastPlace_neg (q : ℚ) : lastPlace (-q) = lastPlace q := by
  simp only [lastPlace, Rat.neg_num, Rat.neg_den, Int.natAbs_neg, abs_neg]

/-! ### Rounding to integers -/

theorem floor_le_roundHalfEven (x : ℚ) : ⌊x⌋ ≤ roundHalfEven x := by
  unfold roundHalfEven
  dsimp only
  split_ifs <;> omega

theorem roundHalfEven_le (x : ℚ) : roundHalfEven x ≤ ⌊x⌋ + 1 := by
  unfold roundHalfEven
  dsimp only
  split_ifs <;> omega

/-- The rationals that are rounded below an integer: half of the way down from it, or exactly half of
the way when the integer is odd. -/
theorem roundHalfEven_lt_iff (x : ℚ) (n : ℤ) :
    roundHalfEven x < n ↔ x < n - 1 / 2 ∨ x = n - 1 / 2 ∧ n % 2 = 1 := by
  have hfloor := Int.floor_le x
  have hceil := Int.lt_floor_add_one x
  rcases lt_trichotomy (⌊x⌋ + 1) n with hlt | heq | hgt
  · have hround := roundHalfEven_le x
    have hcast : ((⌊x⌋ + 1 + 1 : ℤ) : ℚ) ≤ n := by exact_mod_cast hlt
    push_cast at hcast
    exact iff_of_true (by omega) (Or.inl (by linarith))
  · have hcast : ((⌊x⌋ : ℤ) : ℚ) + 1 = n := by exact_mod_cast heq
    unfold roundHalfEven
    dsimp only
    split_ifs with hlow hhigh heven
    · exact iff_of_true (by omega) (Or.inl (by linarith))
    · refine iff_of_false (by omega) ?_
      rintro (h | ⟨h, -⟩) <;> linarith
    · exact iff_of_true (by omega) (Or.inr ⟨by linarith, by omega⟩)
    · refine iff_of_false (by omega) ?_
      rintro (h | ⟨-, h⟩)
      · linarith
      · omega
  · have hround := floor_le_roundHalfEven x
    have hcast : (n : ℚ) ≤ ((⌊x⌋ : ℤ) : ℚ) := by exact_mod_cast Int.lt_add_one_iff.mp hgt
    refine iff_of_false (by omega) ?_
    rintro (h | ⟨h, -⟩) <;> linarith

theorem roundHalfEven_intCast (n : ℤ) : roundHalfEven n = n := by
  simp [roundHalfEven]

theorem roundHalfEven_neg (x : ℚ) : roundHalfEven (-x) = -roundHalfEven x := by
  have hlt : ∀ n : ℤ, roundHalfEven (-x) < n ↔ -roundHalfEven x < n := by
    intro n
    have hrhs : -roundHalfEven x < n ↔ ¬ roundHalfEven x < -n + 1 := by omega
    have hge : ¬ roundHalfEven x < -n + 1 ↔ ¬ (roundHalfEven x < -n + 1) := Iff.rfl
    rw [hrhs, roundHalfEven_lt_iff, roundHalfEven_lt_iff]
    push_cast
    constructor
    · rintro (h | ⟨h, hodd⟩)
      · rintro (h' | ⟨h', -⟩) <;> linarith
      · rintro (h' | ⟨-, hodd'⟩)
        · linarith
        · omega
    · intro h
      obtain ⟨hlt, heq⟩ := not_or.mp h
      rcases lt_or_eq_of_le (not_lt.mp hlt) with hlt | heq'
      · exact Or.inl (by linarith)
      · refine Or.inr ⟨by linarith, ?_⟩
        have hodd : ¬ (-n + 1) % 2 = 1 := fun hodd => heq ⟨heq'.symm, hodd⟩
        omega
  have h := hlt (roundHalfEven (-x) + 1)
  have h' := hlt (roundHalfEven (-x))
  omega

/-! ### Rounding to multiples of the last place -/

namespace Double

/-- The number that a rational is rounded to, whatever its size. -/
def nearest (q : ℚ) : ℚ :=
  roundHalfEven (q / powTwo (lastPlace q)) * powTwo (lastPlace q)

theorem nearest_zero : nearest 0 = 0 := by
  rw [nearest, zero_div]
  rw [show roundHalfEven (0 : ℚ) = 0 from roundHalfEven_intCast 0, Int.cast_zero, zero_mul]

theorem nearest_neg (q : ℚ) : nearest (-q) = -nearest q := by
  rw [nearest, nearest, lastPlace_neg, neg_div, roundHalfEven_neg, Int.cast_neg, neg_mul]

theorem nearest_nonneg {q : ℚ} (h : 0 ≤ q) : 0 ≤ nearest q := by
  have hfloor : 0 ≤ ⌊q / powTwo (lastPlace q)⌋ :=
    Int.floor_nonneg.mpr (div_nonneg h (powTwo_pos _).le)
  exact mul_nonneg (by exact_mod_cast hfloor.trans (floor_le_roundHalfEven _)) (powTwo_pos _).le

theorem round_eq (q : ℚ) : round q =
    if nearest q = 0 then zero (q < 0)
    else if powTwo 1024 ≤ |nearest q| then inf (q < 0) else rat (nearest q) := rfl

/-- Below an integer stays below it, and an integer is reached from half of a last place below it. -/
theorem nearest_lt_iff {q : ℚ} {k : ℕ} (hplace : lastPlace q = -(k : ℤ)) (m : ℤ) :
    nearest q < m ↔ 1 < (m - q) * 2 ^ (k + 1) ∨
      (m - q) * 2 ^ (k + 1) = 1 ∧ (m * 2 ^ k) % 2 = 1 := by
  have hpow : powTwo (lastPlace q) = (2 ^ k : ℚ)⁻¹ := by
    rw [hplace, powTwo_eq, zpow_neg, zpow_natCast]
  have hpos : (0 : ℚ) < 2 ^ k := by positivity
  have hlt : nearest q < m ↔ roundHalfEven (q * 2 ^ k) < m * 2 ^ k := by
    rw [nearest, hpow, div_inv_eq_mul, ← div_eq_mul_inv, div_lt_iff₀ hpos]
    exact_mod_cast Iff.rfl
  rw [hlt, roundHalfEven_lt_iff, pow_succ]
  push_cast
  refine or_congr ⟨fun h => by linarith, fun h => by linarith⟩ (and_congr_left fun _ => ?_)
  exact ⟨fun h => by linarith, fun h => by linarith⟩

theorem le_nearest {q : ℚ} {k : ℕ} (hplace : lastPlace q = -(k : ℤ)) {m : ℤ} (hm : (m : ℚ) ≤ q) :
    (m : ℚ) ≤ nearest q := by
  by_contra hlt
  have hpos : (0 : ℚ) < 2 ^ (k + 1) := by positivity
  have hle : ((m : ℚ) - q) * 2 ^ (k + 1) ≤ 0 :=
    mul_nonpos_of_nonpos_of_nonneg (sub_nonpos.mpr hm) hpos.le
  rcases (nearest_lt_iff hplace m).mp (not_le.mp hlt) with h | ⟨h, -⟩ <;> linarith

theorem truncate_neg (q : ℚ) : truncate (-q) = -truncate q := by
  rw [truncate, truncate, Rat.neg_num, Rat.neg_den, Int.neg_tdiv]

theorem truncate_of_nonneg {q : ℚ} (h : 0 ≤ q) : truncate q = ⌊q⌋ := by
  rw [truncate, Int.tdiv_eq_ediv_of_nonneg (Rat.num_nonneg.mpr h), Rat.floor_def']

/-! ### Integer parts -/

section IntegerPart

variable {q : ℚ} {n : ℕ}

/-- The last place of a rational with an integer part other than zero. -/
theorem lastPlace_of_floor (hn : n ≠ 0) (hle : (n : ℚ) ≤ q) (hlt : q < n + 1) :
    lastPlace q = (n.size : ℤ) - 53 := by
  have hsize : 0 < n.size := Nat.size_pos.mpr (Nat.pos_of_ne_zero hn)
  have hq : |q| = q := abs_of_nonneg ((Nat.cast_nonneg n).trans hle)
  have hlower : 2 ^ (n.size - 1) ≤ n := Nat.lt_size.mp (by omega)
  have hupper : n + 1 ≤ 2 ^ n.size := Nat.lt_size_self n
  have hlower' : ((2 : ℚ) ^ (n.size - 1)) ≤ n := by exact_mod_cast hlower
  have hupper' : ((n : ℚ) + 1) ≤ 2 ^ n.size := by exact_mod_cast hupper
  have hcast : ((n.size - 1 : ℕ) : ℤ) = n.size - 1 := by omega
  rw [lastPlace_of_bounds (k := ((n.size - 1 : ℕ) : ℤ))]
  · omega
  · rw [hq, zpow_natCast]
    linarith
  · rw [hq, hcast, sub_add_cancel, zpow_natCast]
    linarith

/-- **Integer parts below `2 ^ 53`** are kept unless the rational is within half of a last place of
the next integer. -/
theorem floor_nearest_iff_of_lt (hn : n < 2 ^ 53) (hq : 0 < q) (hle : (n : ℚ) ≤ q)
    (hlt : q < n + 1) :
    ⌊nearest q⌋ = n ↔ 1 < (n + 1 - q) * 2 ^ (54 - n.size) ∨
      (n + 1 - q) * 2 ^ (54 - n.size) = 1 ∧ n.size = 53 ∧ n % 2 = 0 := by
  have hsize : n.size ≤ 53 := Nat.size_le.mpr hn
  have hfloor : ∀ {k : ℕ}, lastPlace q = -(k : ℤ) →
      (⌊nearest q⌋ = n ↔ nearest q < ((n + 1 : ℤ) : ℚ)) := by
    intro k hplace
    have hbelow : ((n : ℤ) : ℚ) ≤ nearest q := le_nearest hplace (by exact_mod_cast hle)
    rw [Int.floor_eq_iff]
    push_cast
    exact and_iff_right (by exact_mod_cast hbelow)
  by_cases hhalf : n = 0 ∧ q < 1 / 2
  · -- far below one: both sides hold
    obtain ⟨rfl, hhalf⟩ := hhalf
    obtain ⟨e, he, -, hplace⟩ := exists_exponent hq.ne'
    rw [abs_of_pos hq] at he
    have he' : e < -1 := by
      refine (zpow_lt_zpow_iff_right₀ (one_lt_two : (1 : ℚ) < 2)).mp (he.trans_lt ?_)
      rw [zpow_neg_one]
      linarith
    obtain ⟨k, hk⟩ := Int.eq_ofNat_of_zero_le (show 0 ≤ -lastPlace q by omega)
    have hk53 : 53 ≤ k := by omega
    have hplace' : lastPlace q = -(k : ℤ) := by omega
    have hbig : ∀ j : ℕ, 1 ≤ j → 1 < ((0 : ℕ) + 1 - q) * 2 ^ j := by
      intro j hj
      have hpow : (2 : ℚ) ^ 1 ≤ 2 ^ j := pow_le_pow_right₀ one_le_two hj
      push_cast
      nlinarith
    refine iff_of_true ?_ (Or.inl (hbig _ (by simp)))
    rw [hfloor hplace', nearest_lt_iff hplace']
    exact Or.inl (by exact_mod_cast hbig (k + 1) (by omega))
  · obtain ⟨k, hk, hplace⟩ : ∃ k : ℕ, k + n.size = 53 ∧ lastPlace q = -(k : ℤ) := by
      rcases Nat.eq_zero_or_pos n with rfl | hpos
      · refine ⟨53, rfl, ?_⟩
        have hge : 1 / 2 ≤ q := not_lt.mp fun h => hhalf ⟨rfl, h⟩
        rw [lastPlace_of_bounds (k := -1)]
        · norm_num
        · rw [abs_of_pos hq, zpow_neg_one]
          linarith
        · rw [abs_of_pos hq]
          simpa using hlt
      · refine ⟨53 - n.size, by omega, ?_⟩
        rw [lastPlace_of_floor hpos.ne' hle hlt]
        omega
    rw [hfloor hplace, nearest_lt_iff hplace, show k + 1 = 54 - n.size by omega]
    push_cast
    refine or_congr Iff.rfl (and_congr_right fun _ => ?_)
    constructor
    · intro hodd
      have hk0 : k = 0 := by
        by_contra hk0
        obtain ⟨j, rfl⟩ := Nat.exists_eq_succ_of_ne_zero hk0
        rw [pow_succ, ← mul_assoc, Int.mul_emod_left] at hodd
        cases hodd
      subst hk0
      rw [pow_zero, mul_one] at hodd
      omega
    · rintro ⟨h53, heven⟩
      obtain rfl : k = 0 := by omega
      rw [pow_zero, mul_one]
      omega

/-- **Integer parts from `2 ^ 53` on** are kept when they are multiples of their last place. -/
theorem floor_nearest_iff_of_le (hn : 2 ^ 53 ≤ n) (hle : (n : ℚ) ≤ q) (hlt : q < n + 1) :
    ⌊nearest q⌋ = n ↔ 2 ^ (n.size - 53) ∣ n := by
  have hsize : 53 < n.size := Nat.lt_size.mpr hn
  obtain ⟨k, hk⟩ := Nat.exists_eq_add_of_le hsize.le
  have hplace : lastPlace q = k := by
    rw [lastPlace_of_floor (by omega) hle hlt]
    omega
  have hpow : powTwo (lastPlace q) = 2 ^ k := by rw [hplace, powTwo_eq, zpow_natCast]
  have hpos : (0 : ℚ) < 2 ^ k := by positivity
  have hnearest : nearest q = ((roundHalfEven (q / 2 ^ k) * 2 ^ k : ℤ) : ℚ) := by
    rw [nearest, hpow]
    push_cast
    rfl
  rw [hnearest, Int.floor_intCast, show n.size - 53 = k by omega]
  constructor
  · intro h
    exact Int.natCast_dvd_natCast.mp ⟨roundHalfEven (q / 2 ^ k), by rw [← h]; push_cast; ring⟩
  · rintro ⟨m, rfl⟩
    have hm : ((m : ℤ) : ℚ) ≤ q / 2 ^ k := by
      rw [le_div_iff₀ hpos]
      push_cast at hle ⊢
      linarith
    have hm' : q / 2 ^ k < m + 1 / 2 := by
      have hk2 : (2 : ℚ) ^ 1 ≤ 2 ^ k := pow_le_pow_right₀ one_le_two (by omega)
      rw [div_lt_iff₀ hpos]
      push_cast at hlt
      linarith
    have hround : roundHalfEven (q / 2 ^ k) = m := by
      have hge : ¬ roundHalfEven (q / 2 ^ k) < m := by
        rw [roundHalfEven_lt_iff]
        rintro (h | ⟨h, -⟩) <;> linarith
      have hlt' : roundHalfEven (q / 2 ^ k) < m + 1 := by
        rw [roundHalfEven_lt_iff]
        push_cast
        exact Or.inl (by linarith)
      omega
    rw [hround]
    push_cast
    ring

end IntegerPart

end Double

end Csc512
