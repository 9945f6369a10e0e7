import Csc512.Cdup.Kernel
import Csc512.Lib.DoubleRounding

/-!
# Division of integers

The remainder of two integers is exact. The quotient goes through a double: the exact quotient is
rounded, and what is behind the point is dropped then. Small quotients that are a little below an
integer are rounded up to it, and large ones lose their last digits.

## Main results

* `dividesAsC_iff` — when quotient and remainder are those of C
* `not_dividesAsC` — `2 ^ 53 + 1` divided by `1`
-/

namespace Csc512

open Double

/-- Quotient and remainder as C has them: the quotient is cut off, and the remainder has the sign of
the dividend. -/
structure DivisionLaw (a b d m : ℤ) : Prop where
  quotient : d = a.tdiv b
  sign : m = 0 ∨ m.sign = a.sign
  small : |m| < |b|
  total : d * b + m = a

/-- The operators of the kernel divide as C does. -/
def DividesAsC (a b : ℤ) : Prop :=
  ∃ d m, (∀ s, opDiv (.int a) (.int b) s = (.ok (.int d), s)) ∧
    (∀ s, opMod (.int a) (.int b) s = (.ok (.int m), s)) ∧ DivisionLaw a b d m

/-- The quotient `n` of two numbers survives the detour through a double, where `r` is the remainder
and `b` the divisor. Below `2 ^ 53` the exact quotient must not be within half of a last place of
`n + 1`, where exactly half is harmless if `n` has `53` bits and is even. From `2 ^ 53` on `n` must
be a double. -/
def QuotientKept (n r b : ℕ) : Prop :=
  if n < 2 ^ 53 then
    b < (b - r) * 2 ^ (54 - n.size) ∨ (b - r) * 2 ^ (54 - n.size) = b ∧ n.size = 53 ∧ n % 2 = 0
  else n < 2 ^ 1024 ∧ 2 ^ (n.size - 53) ∣ n

instance (n r b : ℕ) : Decidable (QuotientKept n r b) :=
  inferInstanceAs (Decidable (if n < 2 ^ 53 then
    b < (b - r) * 2 ^ (54 - n.size) ∨ (b - r) * 2 ^ (54 - n.size) = b ∧ n.size = 53 ∧ n % 2 = 0
  else n < 2 ^ 1024 ∧ 2 ^ (n.size - 53) ∣ n))

/-! ### Remainders -/

theorem isZero_int {b : ℤ} (hb : b ≠ 0) : isZero (.int b) = false := by
  simpa [isZero, Value.number?, Double.value?] using hb

/-- **Remainders are exact.** -/
theorem opMod_int (a : ℤ) {b : ℤ} (hb : b ≠ 0) (s : VmState) :
    opMod (.int a) (.int b) s = (.ok (.int (a.tmod b)), s) := by
  have hlt : cmpLt true (.int 0) (.int a) s = (.ok (decide (0 ≤ a)), s) := by
    show (Except.ok (_ || _), s) = _
    refine congrArg (fun b => (Except.ok b, s)) ?_
    show (decide (((0 : ℤ) : ℚ) < a) || (true && decide (some ((0 : ℤ) : ℚ) = some (a : ℚ)))) = _
    rw [Bool.true_and, ← Bool.decide_or]
    refine decide_eq_decide.mpr ?_
    rw [Option.some_inj, Int.cast_lt, Int.cast_inj]
    omega
  have hresult : opMod (.int a) (.int b) s
      = (cmpLt true (.int 0) (.int a) >>= fun nonneg =>
          if nonneg then pure (.int (|a| % |b|)) else opNeg (.int (|a| % |b|))) s := by
    rw [opMod, isZero_int hb]
    rfl
  rw [hresult, Exec.bind_of_ok hlt]
  have htmod : (a.tmod b : ℤ) = if 0 ≤ a then |a| % |b| else -(|a| % |b|) := by
    split_ifs with ha
    · rw [abs_of_nonneg ha, Int.emod_abs, Int.tmod_eq_emod_of_nonneg ha]
    · have ha' : 0 ≤ -a := by omega
      rw [abs_of_neg (not_le.mp ha), Int.emod_abs, ← Int.tmod_eq_emod_of_nonneg ha', Int.neg_tmod,
        neg_neg]
  rw [htmod]
  by_cases ha : 0 ≤ a
  · rw [decide_eq_true ha, if_pos ha]
    rfl
  · rw [decide_eq_false ha, if_neg ha]
    rfl

/-! ### Quotients -/

theorem opDiv_int (a : ℤ) {b : ℤ} (hb : b ≠ 0) (s : VmState) :
    opDiv (.int a) (.int b) s = (if powTwo 1024 ≤ |nearest (a / b)| then
      raise .overflowError else pure (.int (truncate (nearest (a / b)))) : Vm Value) s := by
  rw [opDiv, isZero_int hb, if_neg Bool.false_ne_true, Double.round_eq]
  by_cases hzero : nearest ((a : ℚ) / b) = 0
  · have hpos : ¬ powTwo 1024 ≤ |(0 : ℚ)| := by
      rw [abs_zero]
      exact not_le.mpr (powTwo_pos _)
    rw [if_pos hzero, hzero, if_neg hpos]
    unfold zero
    split_ifs <;> rfl
  · rw [if_neg hzero]
    split_ifs <;> rfl

/-- A quotient without signs is the same behind its rounding. -/
theorem floor_nearest_div_iff (a : ℕ) {b : ℕ} (hb : 0 < b) :
    (|nearest ((a : ℚ) / b)| < powTwo 1024 ∧ ⌊nearest ((a : ℚ) / b)⌋ = (a / b : ℕ)) ↔
      QuotientKept (a / b) (a % b) b := by
  have hbpos : (0 : ℚ) < b := by exact_mod_cast hb
  have hpow : powTwo 1024 = ((2 ^ 1024 : ℕ) : ℚ) := powTwo_natCast 1024
  have hdivision : (b : ℚ) * (a / b : ℕ) + (a % b : ℕ) = a := by exact_mod_cast Nat.div_add_mod a b
  have hrest : ((a % b : ℕ) : ℚ) < b := by exact_mod_cast Nat.mod_lt a hb
  have hrest0 : (0 : ℚ) ≤ (a % b : ℕ) := Nat.cast_nonneg _
  have hle : ((a / b : ℕ) : ℚ) ≤ (a : ℚ) / b := by
    rw [le_div_iff₀ hbpos]
    linarith
  have hlt : (a : ℚ) / b < (a / b : ℕ) + 1 := by
    rw [div_lt_iff₀ hbpos]
    linarith
  rcases Nat.eq_zero_or_pos a with rfl | ha
  · rw [Nat.cast_zero, zero_div, nearest_zero, abs_zero, Nat.zero_div, Nat.zero_mod]
    refine iff_of_true ⟨powTwo_pos _, by simp⟩ ?_
    rw [QuotientKept, if_pos (by norm_num)]
    exact Or.inl (by simp [Nat.size_zero]; omega)
  · have hq : 0 < (a : ℚ) / b := div_pos (by exact_mod_cast ha) hbpos
    generalize hn : a / b = n at *
    generalize hr : a % b = r at *
    have hr' : r < b := by exact_mod_cast hrest
    -- an integer part that is kept bounds the rounded quotient
    have hsize : ⌊nearest ((a : ℚ) / b)⌋ = n →
        (|nearest ((a : ℚ) / b)| < powTwo 1024 ↔ n < 2 ^ 1024) := by
      intro hfloor
      obtain ⟨hlow, hhigh⟩ := Int.floor_eq_iff.mp hfloor
      push_cast at hlow hhigh
      rw [abs_of_nonneg ((Nat.cast_nonneg n).trans hlow), hpow]
      constructor
      · intro h
        exact_mod_cast hlow.trans_lt h
      · intro h
        have hsucc : ((n + 1 : ℕ) : ℚ) ≤ ((2 ^ 1024 : ℕ) : ℚ) := Nat.cast_le.mpr h
        rw [Nat.cast_add_one] at hsucc
        exact hhigh.trans_le hsucc
    have hboth : (|nearest ((a : ℚ) / b)| < powTwo 1024 ∧ ⌊nearest ((a : ℚ) / b)⌋ = n) ↔
        ⌊nearest ((a : ℚ) / b)⌋ = n ∧ n < 2 ^ 1024 := by
      rw [and_comm]
      exact and_congr_right hsize
    rw [hboth, QuotientKept]
    by_cases hsmall : n < 2 ^ 53
    · have hgap : ∀ k : ℕ, ((n : ℚ) + 1 - a / b) * 2 ^ k = ((b - r) * 2 ^ k : ℕ) / b := by
        intro k
        rw [eq_div_iff hbpos.ne', Nat.cast_mul, Nat.cast_sub hr'.le, ← hdivision]
        push_cast
        field_simp
        ring
      have hbig : n < 2 ^ 1024 := hsmall.trans_le (Nat.pow_le_pow_right (by decide) (by decide))
      rw [if_pos hsmall, and_iff_left hbig, floor_nearest_iff_of_lt hsmall hq hle hlt, hgap,
        lt_div_iff₀ hbpos, one_mul, div_eq_one_iff_eq hbpos.ne', Nat.cast_lt, Nat.cast_inj]
    · rw [if_neg hsmall, floor_nearest_iff_of_le (not_lt.mp hsmall) hle hlt]
      exact and_comm

/-- The sign of a quotient is kept out of its rounding. -/
theorem quotient_signs (a b : ℤ) : ∃ neg : Bool,
    (a : ℚ) / b = (if neg then -1 else 1) * ((a.natAbs : ℚ) / b.natAbs) ∧
      a.tdiv b = (if neg then -1 else 1) * ((a.natAbs / b.natAbs : ℕ) : ℤ) := by
  obtain ⟨m, rfl | rfl⟩ := a.eq_nat_or_neg <;> obtain ⟨n, rfl | rfl⟩ := b.eq_nat_or_neg
  · exact ⟨false, by simp, by simp⟩
  · exact ⟨true, by simp [div_neg], by simp⟩
  · exact ⟨true, by simp [neg_div], by simp⟩
  · exact ⟨false, by simp, by simp⟩

/-- **Division as in C**: quotient and remainder of two integers are those of C exactly if the
quotient of their absolute values survives the detour through a double. -/
theorem dividesAsC_iff (a : ℤ) {b : ℤ} (hb : b ≠ 0) : DividesAsC a b ↔
    QuotientKept (a.natAbs / b.natAbs) (a.natAbs % b.natAbs) b.natAbs := by
  rw [← floor_nearest_div_iff a.natAbs (Int.natAbs_pos.mpr hb)]
  obtain ⟨neg, hquotient, htdiv⟩ := quotient_signs a b
  set x := (a.natAbs : ℚ) / b.natAbs
  have hx : 0 ≤ x := by positivity
  have hnearest : 0 ≤ nearest x := nearest_nonneg hx
  have hsign : |nearest ((a : ℚ) / b)| = |nearest x| ∧
      (truncate (nearest ((a : ℚ) / b)) = a.tdiv b ↔
        ⌊nearest x⌋ = (a.natAbs / b.natAbs : ℕ)) := by
    rw [hquotient, htdiv, ← truncate_of_nonneg hnearest]
    cases neg with
    | false => simp
    | true => simp [nearest_neg, truncate_neg]
  rw [← hsign.1, ← hsign.2, ← not_le]
  constructor
  · rintro ⟨d, m, hdiv, -, hlaw⟩
    have hresult := hdiv {}
    rw [opDiv_int a hb] at hresult
    split_ifs at hresult with hlarge
    · cases (Prod.mk.inj hresult).1
    · obtain rfl := Value.int.inj (Except.ok.inj (Prod.mk.inj hresult).1)
      exact ⟨hlarge, hlaw.quotient⟩
  · rintro ⟨hlarge, hquot⟩
    refine ⟨a.tdiv b, a.tmod b, fun s => ?_, opMod_int a hb, rfl, ?_, ?_, ?_⟩
    · rw [opDiv_int a hb, if_neg hlarge, hquot]
      rfl
    · rcases eq_or_ne (a.tmod b) 0 with hzero | hzero
      · exact Or.inl hzero
      · refine Or.inr ?_
        rw [Int.sign_tmod, if_neg fun hdvd => hzero (Int.tmod_eq_zero_of_dvd hdvd)]
    · rw [Int.abs_eq_natAbs, Int.abs_eq_natAbs, Int.natAbs_tmod]
      exact_mod_cast Nat.mod_lt _ (Int.natAbs_pos.mpr hb)
    · exact Int.tdiv_mul_add_tmod a b

theorem dividesAsC_iff_sample : DividesAsC (-7) 2 :=
  (dividesAsC_iff (-7) (by decide)).mpr (by decide)

/-- **A quotient that is not kept**: `2 ^ 53 + 1` is no double. -/
theorem not_dividesAsC : ¬ ∀ a b : ℤ, b ≠ 0 → DividesAsC a b := by
  intro h
  obtain ⟨d, m, hdiv, -, hlaw⟩ := h (2 ^ 53 + 1) 1 (by decide)
  have hresult : (opDiv (.int (2 ^ 53 + 1)) (.int 1) {}).1 = .ok (.int (2 ^ 53)) := by
    decide +kernel
  rw [hdiv] at hresult
  obtain rfl := Value.int.inj (Except.ok.inj hresult)
  exact absurd hlaw.quotient (by decide)

end Csc512
