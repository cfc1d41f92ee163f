import GraphSync.Binary64.Basic
import Mathlib.Algebra.Group.Nat.Defs

namespace GraphSync.Binary64

variable {x y : Binary64} {num den k : Nat}

/-- At most `2 ^ k`, read off the bits of a number without sign. -/
def AtMostPower (k : Nat) (x : Binary64) : Prop := x.bits.toNat ≤ (k + 1023) * hiddenBit

theorem AtMostPower.isFinite (h : AtMostPower k x) (hk : k < 1024) : x.isFinite = true := by
  have hfield : x.exponentField ≠ 2047 := by
    simp only [AtMostPower, exponentField, hiddenBit] at h ⊢
    omega
  exact bne_iff_ne.mpr hfield

theorem isFinite_of_isZero (h : x.isZero = true) : x.isFinite = true := by
  simp only [isZero, Bool.and_eq_true, beq_iff_eq] at h
  simp [isFinite, h.1]

@[simp] theorem neg_exponentField : x.neg.exponentField = x.exponentField := by
  have hbits : x.neg.bits.toNat = x.bits.toNat ^^^ 2 ^ 63 := UInt64.toNat_xor ..
  have hfield : ∀ n : Nat, n / hiddenBit % 2048 = n / 2 ^ 52 % 2 ^ 11 := fun _ => rfl
  simp only [exponentField, hbits, hfield]
  refine Nat.eq_of_testBit_eq fun i => ?_
  simp only [Nat.testBit_mod_two_pow, Nat.testBit_div_two_pow, Nat.testBit_xor, Nat.testBit_two_pow]
  by_cases hi : i < 11
  · simp [show ¬ 63 = i + 52 by omega]
  · simp [hi]

@[simp] theorem withSign_isFinite (b : Bool) : (withSign b x).isFinite = x.isFinite := by
  cases b <;> simp [withSign, isFinite]

/-- A bound on a quotient stays one as both sides are scaled by powers of two. -/
theorem scaled_le {a b a' b' : Nat} (h : num * 2 ^ a ≤ den * 2 ^ b) (he : b + a' ≤ b' + a) :
    num * 2 ^ a' ≤ den * 2 ^ b' := by
  refine Nat.le_of_mul_le_mul_right ?_ (Nat.two_pow_pos a)
  calc num * 2 ^ a' * 2 ^ a = num * 2 ^ a * 2 ^ a' := Nat.mul_right_comm ..
    _ ≤ den * 2 ^ b * 2 ^ a' := Nat.mul_le_mul_right _ h
    _ = den * 2 ^ (b + a') := by rw [Nat.mul_assoc, ← Nat.pow_add]
    _ ≤ den * 2 ^ (b' + a) := Nat.mul_le_mul_left _ (Nat.pow_le_pow_right (by decide) he)
    _ = den * 2 ^ b' * 2 ^ a := by rw [Nat.pow_add, Nat.mul_assoc]

/-- Rounding to an integer does not cross an integer. -/
theorem divNearest_le {tie : Tie} {q : Nat} (hden : 0 < den) (h : num ≤ den * q) :
    divNearest tie num den ≤ q := by
  rcases Nat.lt_or_eq_of_le (Nat.div_le_of_le_mul h) with hlt | heq
  · have hstep : divNearest tie num den ≤ num / den + 1 := by
      simp only [divNearest]
      grind
    omega
  · have hrest : num % den = 0 := by
      have := Nat.div_add_mod num den
      rw [heq] at this
      omega
    simp [divNearest, hrest, hden, heq]

theorem le_divNearest {tie : Tie} {q : Nat} (hden : 0 < den) (h : den * q ≤ num) :
    q ≤ divNearest tie num den := by
  have hq : q ≤ num / den := (Nat.le_div_iff_mul_le hden).mpr (by rwa [Nat.mul_comm])
  simp only [divNearest]
  grind

theorem logQuotient_le (hnum : 0 < num) (h : num ≤ den * 2 ^ k) : logQuotient num den ≤ k := by
  have hlog : num.log2 < den.log2 + 1 + k := by
    refine (Nat.pow_lt_pow_iff_right (a := 2) (by decide)).mp ?_
    calc 2 ^ num.log2 ≤ num := Nat.log2_self_le (by omega)
      _ ≤ den * 2 ^ k := h
      _ < 2 ^ (den.log2 + 1) * 2 ^ k :=
        Nat.mul_lt_mul_of_pos_right Nat.lt_log2_self (Nat.two_pow_pos k)
      _ = 2 ^ (den.log2 + 1 + k) := (Nat.pow_add ..).symm
  simp only [logQuotient]
  split <;> omega

/-- A quotient is less than twice its greatest power of two. -/
theorem le_logQuotient (num : Nat) (hden : 0 < den) :
    num * 2 ^ (-(logQuotient num den + 1)).toNat ≤ den * 2 ^ (logQuotient num den + 1).toNat := by
  simp only [logQuotient, Nat.pow_eq]
  split
  case isTrue =>
    have hlog : num * 2 ^ den.log2 ≤ den * 2 ^ (num.log2 + 1) :=
      calc num * 2 ^ den.log2 ≤ num * den := Nat.mul_le_mul_left _ (Nat.log2_self_le (by omega))
        _ ≤ 2 ^ (num.log2 + 1) * den := Nat.mul_le_mul_right _ (Nat.le_of_lt Nat.lt_log2_self)
        _ = den * 2 ^ (num.log2 + 1) := Nat.mul_comm ..
    exact scaled_le hlog (by omega)
  case isFalse h => exact scaled_le (Nat.le_of_lt (Nat.lt_of_not_le h)) (by omega)

/-- A quotient is at least its greatest power of two. -/
theorem logQuotient_mul_le (den : Nat) (hnum : 0 < num) :
    den * 2 ^ (logQuotient num den).toNat ≤ num * 2 ^ (-logQuotient num den).toNat := by
  simp only [logQuotient, Nat.pow_eq]
  split
  case isTrue h => exact h
  case isFalse =>
    have hlog : den * 2 ^ num.log2 ≤ num * 2 ^ (den.log2 + 1) :=
      calc den * 2 ^ num.log2 ≤ den * num := Nat.mul_le_mul_left _ (Nat.log2_self_le (by omega))
        _ ≤ 2 ^ (den.log2 + 1) * num := Nat.mul_le_mul_right _ (Nat.le_of_lt Nat.lt_log2_self)
        _ = num * 2 ^ (den.log2 + 1) := Nat.mul_comm ..
    exact scaled_le hlog (by omega)

theorem logQuotient_nonneg (hden : 0 < den) (h : den ≤ num) : 0 ≤ logQuotient num den := by
  have hlog : den.log2 < num.log2 + 1 := by
    refine (Nat.pow_lt_pow_iff_right (a := 2) (by decide)).mp ?_
    calc 2 ^ den.log2 ≤ den := Nat.log2_self_le (by omega)
      _ ≤ num := h
      _ < 2 ^ (num.log2 + 1) := Nat.lt_log2_self
  simp only [logQuotient, Nat.pow_eq]
  split
  case isTrue => omega
  case isFalse hless =>
    have hne : den.log2 ≠ num.log2 := fun heq => hless (by simpa [heq] using h)
    omega

theorem toNat_packed {n : Nat} (h : n < 2047 * hiddenBit) : n.toUInt64.toNat = n :=
  (UInt64.toNat_ofNat' ..).trans (Nat.mod_eq_of_lt (by simp only [hiddenBit] at h; omega))

/-- Whatever lies beyond the range becomes infinity. -/
theorem packed_bits (n : Nat) :
    (if n < 2047 * hiddenBit then (⟨n.toUInt64⟩ : Binary64) else infinity).bits.toNat =
      min n (2047 * hiddenBit) := by
  split
  case isTrue h => rw [Nat.min_eq_left (Nat.le_of_lt h), toNat_packed h]
  case isFalse h =>
    rw [Nat.min_eq_right (Nat.le_of_not_lt h)]
    rfl

theorem ofQuotient_isFinite_or : (ofQuotient num den).isFinite = true ∨
    ofQuotient num den = infinity := by
  simp only [ofQuotient]
  split
  · exact .inl rfl
  · generalize (if _ < hiddenBit then _ else _ : Nat) = n
    split
    case isTrue h =>
      refine .inl (bne_iff_ne.mpr ?_)
      simp only [exponentField, toNat_packed h, hiddenBit] at h ⊢
      omega
    case isFalse => exact .inr rfl

/-- The bits of `m · 2 ^ e`. At `2 ^ k` itself there is room for one more bit of exponent than below
it. -/
theorem pack_le {m : Nat} {e : Int}
    (h : m ≤ 2 ^ 52 ∧ e + 52 ≤ k ∨ m ≤ 2 ^ 53 ∧ e + 53 ≤ k) :
    (if m < hiddenBit then m else (e + 1074).toNat * hiddenBit + m) ≤ (k + 1023) * hiddenBit := by
  split <;> simp only [hiddenBit] at * <;> omega

theorem le_pack {m : Nat} {e : Int} (h : 2 ^ 52 ≤ m) (he : -52 ≤ e) :
    1023 * hiddenBit ≤ if m < hiddenBit then m else (e + 1074).toNat * hiddenBit + m := by
  split <;> simp only [hiddenBit] at * <;> omega

/-- The bits of a rounded quotient: its significand counts units of `2 ^ e`. -/
theorem ofQuotient_bits (den : Nat) (hnum : num ≠ 0) :
    ∃ e, e = max (logQuotient num den - 52) (-1074) ∧
      ∃ m, m = divNearest .even (num * 2 ^ (-e).toNat) (den * 2 ^ e.toNat) ∧
        (ofQuotient num den).bits.toNat =
          min (if m < hiddenBit then m else (e + 1074).toNat * hiddenBit + m)
            (2047 * hiddenBit) := by
  refine ⟨_, rfl, _, rfl, ?_⟩
  simp only [ofQuotient, if_neg hnum, packed_bits, Nat.pow_eq]

/-- A quotient of at most a power of two is rounded to at most that power. -/
theorem ofQuotient_atMost (hden : 0 < den) (h : num ≤ den * 2 ^ k) :
    AtMostPower k (ofQuotient num den) := by
  by_cases hnum : num = 0
  · simp [ofQuotient, hnum, AtMostPower, zero]
  · have hlog := logQuotient_le (Nat.pos_of_ne_zero hnum) h
    have htwice := le_logQuotient num hden
    obtain ⟨e, he, m, hm, hbits⟩ := ofQuotient_bits den hnum
    generalize logQuotient num den = l at hlog htwice he
    have hround {j : Nat} (hj : num * 2 ^ (-e).toNat ≤ den * 2 ^ (e.toNat + j)) : m ≤ 2 ^ j :=
      hm ▸ divNearest_le (Nat.mul_pos hden (Nat.two_pow_pos _))
        (by rwa [Nat.mul_assoc, ← Nat.pow_add])
    rw [AtMostPower, hbits]
    refine Nat.le_trans (Nat.min_le_left ..) (pack_le ?_)
    rcases Int.lt_or_eq_of_le hlog with hlt | rfl
    · exact .inr ⟨hround (scaled_le htwice (by omega)), by omega⟩
    · exact .inl ⟨hround (scaled_le (a := 0) (b := k) (by simpa using h) (by omega)), by omega⟩

theorem ofNat_atMost {n : Nat} (h : n ≤ 2 ^ k) : AtMostPower k (ofNat n) :=
  ofQuotient_atMost Nat.one_pos (by rwa [Nat.one_mul])

theorem ofInt_isFinite {n : Int} (h : n.natAbs ≤ 2 ^ 64) : (ofInt n).isFinite = true := by
  rw [ofInt, withSign_isFinite]
  exact (ofNat_atMost h).isFinite (by decide)

theorem magnitude_le_of_significand {j : Nat} (h : x.significand ≤ 2 ^ j)
    (he : x.exponent + j ≤ k) : x.magnitude.1 ≤ x.magnitude.2 * 2 ^ k := by
  calc x.magnitude.1 ≤ 2 ^ j * 2 ^ x.exponent.toNat := Nat.mul_le_mul_right _ h
    _ = 2 ^ (j + x.exponent.toNat) := (Nat.pow_add ..).symm
    _ ≤ 2 ^ ((-x.exponent).toNat + k) := Nat.pow_le_pow_right (by decide) (by omega)
    _ = x.magnitude.2 * 2 ^ k := Nat.pow_add ..

theorem AtMostPower.magnitude_le (h : AtMostPower k x) :
    x.magnitude.1 ≤ x.magnitude.2 * 2 ^ k := by
  -- the greatest stored exponent belongs to the power itself, so nothing is left for the fraction
  rcases Nat.lt_or_ge x.exponentField (k + 1023) with hlt | hge
  · refine magnitude_le_of_significand (j := 53) ?_ ?_ <;>
      simp only [significand, exponent] <;> split <;>
      simp only [exponentField, fraction, hiddenBit] at * <;> omega
  · refine magnitude_le_of_significand (j := 52) ?_ ?_ <;>
      simp only [significand, exponent] <;> split <;>
      simp only [AtMostPower, exponentField, fraction, hiddenBit] at * <;> omega

theorem magnitude_snd_pos (x : Binary64) : 0 < x.magnitude.2 := Nat.two_pow_pos _

/-- Division by at least one. -/
theorem AtMostPower.divMagnitude (h : AtMostPower k x) (hy : y.magnitude.2 ≤ y.magnitude.1) :
    AtMostPower k (x.divMagnitude y) := by
  refine ofQuotient_atMost
    (Nat.mul_pos x.magnitude_snd_pos (Nat.lt_of_lt_of_le y.magnitude_snd_pos hy)) ?_
  calc x.magnitude.1 * y.magnitude.2 ≤ x.magnitude.2 * 2 ^ k * y.magnitude.1 :=
    Nat.mul_le_mul h.magnitude_le hy
    _ = x.magnitude.2 * y.magnitude.1 * 2 ^ k := Nat.mul_right_comm ..

theorem magnitude_ge_of_significand (h : 2 ^ 52 ≤ x.significand) (he : -52 ≤ x.exponent) :
    x.magnitude.2 ≤ x.magnitude.1 := by
  calc x.magnitude.2 ≤ 2 ^ 52 := Nat.pow_le_pow_right (by decide) (by omega)
    _ ≤ x.significand := h
    _ ≤ x.magnitude.1 := Nat.le_mul_of_pos_right _ (Nat.two_pow_pos _)

/-- A quotient of at least one is rounded to at least one. -/
theorem ofQuotient_ge_one (hden : 0 < den) (h : den ≤ num) :
    (ofQuotient num den).magnitude.2 ≤ (ofQuotient num den).magnitude.1 := by
  have hbits : 1023 * hiddenBit ≤ (ofQuotient num den).bits.toNat ∧
      (ofQuotient num den).bits.toNat ≤ 2047 * hiddenBit := by
    have hnum : 0 < num := Nat.lt_of_lt_of_le hden h
    have hlog := logQuotient_nonneg hden h
    have hpower := logQuotient_mul_le den hnum
    obtain ⟨e, he, m, hm, hbits⟩ := ofQuotient_bits den (Nat.ne_of_gt hnum)
    generalize logQuotient num den = l at hlog hpower he
    have hround : 2 ^ 52 ≤ m := by
      rw [hm]
      refine le_divNearest (Nat.mul_pos hden (Nat.two_pow_pos _)) ?_
      rw [Nat.mul_assoc, ← Nat.pow_add]
      exact scaled_le hpower (by omega)
    rw [hbits]
    exact ⟨Nat.le_min.mpr ⟨le_pack hround (by omega), by decide⟩, Nat.min_le_right ..⟩
  refine magnitude_ge_of_significand ?_ ?_ <;> simp only [significand, exponent] <;> split <;>
    simp only [exponentField, fraction, hiddenBit] at * <;> omega

end GraphSync.Binary64
