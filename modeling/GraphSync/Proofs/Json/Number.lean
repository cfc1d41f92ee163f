import GraphSync.Json.Number
import GraphSync.Json.Printer
import GraphSync.Proofs.Binary64.Range
import Mathlib.Data.List.TakeDrop
import Mathlib.Data.Option.Basic

namespace GraphSync.Json

open Text

variable {cs r rest : List Char}

/-- A text that no number word goes on with. -/
def Stops (rest : List Char) : Prop :=
  ∀ c ∈ rest.head?, isDecimal c = false ∧ c ≠ '.' ∧ isExponent c = false

theorem stops_nil : Stops [] := by simp [Stops]

theorem stops_cons {c : Char} (h : isDecimal c = false ∧ c ≠ '.' ∧ isExponent c = false)
    (cs : List Char) : Stops (c :: cs) := by
  simpa [Stops] using h

theorem spanDecimal_cons (c : Char) (cs : List Char) :
    spanDecimal (c :: cs) =
      if isDecimal c then (c :: (spanDecimal cs).1, (spanDecimal cs).2) else ([], c :: cs) := by
  simp only [spanDecimal, List.span_eq_takeWhile_dropWhile, List.takeWhile_cons,
    List.dropWhile_cons]
  split <;> rfl

theorem spanDecimal_of_stops (h : Stops rest) : spanDecimal rest = ([], rest) := by
  cases rest with
  | nil => rfl
  | cons c rest => simp [spanDecimal_cons, (h c rfl).1]

theorem spanDecimal_append (h : Stops rest) (cs : List Char) :
    spanDecimal (cs ++ rest) = ((spanDecimal cs).1, (spanDecimal cs).2 ++ rest) := by
  induction cs with
  | nil => exact spanDecimal_of_stops h
  | cons c cs ih =>
    rw [List.cons_append, spanDecimal_cons, spanDecimal_cons, ih]
    split <;> rfl

theorem readMinus_append (h : cs ≠ []) :
    readMinus (cs ++ rest) = ((readMinus cs).1, (readMinus cs).2 ++ rest) := by
  obtain ⟨c, cs, rfl⟩ := List.exists_cons_of_ne_nil h
  by_cases hc : c = '-' <;> simp [readMinus, hc]

theorem readSign_append (h : cs ≠ []) :
    readSign (cs ++ rest) = ((readSign cs).1, (readSign cs).2 ++ rest) := by
  obtain ⟨c, cs, rfl⟩ := List.exists_cons_of_ne_nil h
  by_cases hc : c = '-'
  · simp [readSign, hc]
  · by_cases hc' : c = '+' <;> simp [readSign, hc, hc']

theorem readFraction?_of_stops (h : Stops rest) : readFraction? rest = some (none, rest) := by
  cases rest with
  | nil => rfl
  | cons c rest => simp [readFraction?, (h c rfl).2.1]

theorem readExponent?_of_stops (h : Stops rest) : readExponent? rest = some (none, rest) := by
  cases rest with
  | nil => rfl
  | cons c rest => simp [readExponent?, (h c rfl).2.2]

theorem readFraction?_append {f : Option (List Char)} (h : Stops rest)
    (hr : readFraction? cs = some (f, r)) : readFraction? (cs ++ rest) = some (f, r ++ rest) := by
  cases cs with
  | nil =>
    obtain ⟨rfl, rfl⟩ : none = f ∧ [] = r := by simpa [readFraction?] using hr
    exact readFraction?_of_stops h
  | cons c cs =>
    by_cases hc : c = '.'
    · subst hc
      obtain ⟨hd, rfl, rfl⟩ : (spanDecimal cs).1 ≠ [] ∧ some (spanDecimal cs).1 = f ∧
          (spanDecimal cs).2 = r := by
        simpa [readFraction?, Option.bind_eq_some_iff] using hr
      simp [readFraction?, spanDecimal_append h, hd]
    · obtain ⟨rfl, rfl⟩ : none = f ∧ c :: cs = r := by simpa [readFraction?, hc] using hr
      simp [readFraction?, hc]

theorem readExponent?_append {e : Option (Bool × List Char)} (h : Stops rest)
    (hr : readExponent? cs = some (e, r)) : readExponent? (cs ++ rest) = some (e, r ++ rest) := by
  cases cs with
  | nil =>
    obtain ⟨rfl, rfl⟩ : none = e ∧ [] = r := by simpa [readExponent?] using hr
    exact readExponent?_of_stops h
  | cons c cs =>
    cases hc : isExponent c
    · obtain ⟨rfl, rfl⟩ : none = e ∧ c :: cs = r := by simpa [readExponent?, hc] using hr
      simp [readExponent?, hc]
    · obtain ⟨hd, rfl, rfl⟩ : (spanDecimal (readSign cs).2).1 ≠ [] ∧
          some ((readSign cs).1, (spanDecimal (readSign cs).2).1) = e ∧
          (spanDecimal (readSign cs).2).2 = r := by
        simpa [readExponent?, hc, Option.bind_eq_some_iff] using hr
      have hcs : cs ≠ [] := by
        rintro rfl
        exact hd rfl
      simp [readExponent?, hc, readSign_append hcs, spanDecimal_append h, hd]

theorem readNumber?_eq_some {w : NumberWord} :
    readNumber? cs = some (w, r) ↔
      ((readMinus cs).1 = w.negative ∧ (spanDecimal (readMinus cs).2).1 = w.whole) ∧
        (w.whole ≠ [] ∧ (w.whole.head? = some '0' → w.whole.length = 1)) ∧
        ∃ s, readFraction? (spanDecimal (readMinus cs).2).2 = some (w.fraction, s) ∧
          readExponent? s = some (w.exponent, r) := by
  simp only [readNumber?, bind, pure, Option.bind_eq_some_iff, Option.guard_eq_some']
  constructor
  · rintro ⟨_, hd, ⟨f, s⟩, hf, ⟨e, r⟩, he, ⟨⟩⟩
    exact ⟨⟨rfl, rfl⟩, hd, s, hf, he⟩
  · rintro ⟨⟨hn, hw⟩, hd, s, hf, he⟩
    exact ⟨(), hw ▸ hd, _, hf, _, he, by rw [hn, hw]⟩

theorem readNumber?_append {w : NumberWord} (h : Stops rest) (hr : readNumber? cs = some (w, r)) :
    readNumber? (cs ++ rest) = some (w, r ++ rest) := by
  obtain ⟨hw, hd, s, hf, he⟩ := readNumber?_eq_some.mp hr
  have hcs : cs ≠ [] := by
    rintro rfl
    exact hd.1 hw.2.symm
  rw [readNumber?_eq_some, readMinus_append hcs, spanDecimal_append h]
  exact ⟨hw, hd, s ++ rest, readFraction?_append h hf, readExponent?_append h he⟩

theorem isDecimal_of_isDigit {c : Char} (h : c.isDigit = true) : isDecimal c = true := by
  simpa [isDecimal, Char.isDigit, Char.le_def] using h

theorem digit?_of_isDigit {c : Char} (h : c.isDigit = true) :
    digit? c = some (c.toNat - '0'.toNat) :=
  if_pos (of_decide_eq_true (isDecimal_of_isDigit h))

theorem spanDecimal_of_isDigit (h : ∀ c ∈ cs, c.isDigit = true) :
    spanDecimal cs = (cs, []) := by
  induction cs with
  | nil => rfl
  | cons c cs ih =>
    rw [List.forall_mem_cons] at h
    simp [spanDecimal_cons, isDecimal_of_isDigit h.1, ih h.2]

theorem readMinus_of_isDigit (h : ∀ c ∈ cs, c.isDigit = true) : readMinus cs = (false, cs) := by
  cases cs with
  | nil => rfl
  | cons c cs =>
    have hc : c ≠ '-' := by
      rintro rfl
      exact absurd (h '-' List.mem_cons_self) (by decide)
    simp [readMinus, hc]

theorem isDigit_of_mem_toDigits {n : Nat} :
    ∀ c ∈ Nat.toDigits 10 n, c.isDigit = true := fun _ hc =>
  Nat.isDigit_of_mem_toDigits (by decide) (by decide) hc

/-- Only zero is written with a leading zero. -/
theorem eq_zero_of_head?_toDigits {n : Nat} (h : (Nat.toDigits 10 n).head? = some '0') : n = 0 := by
  induction n using Nat.base_induction 10 (by decide) with
  | single m hm => simpa [Nat.toDigits_of_lt_base hm] using h
  | digit m k hk hm ih =>
    have hhead := List.head?_eq_some_head (Nat.toDigits_ne_nil (n := m) (b := 10))
    rw [← Nat.toDigits_append_toDigits (by decide) hm hk, List.head?_append, hhead,
      Option.some_or, ← hhead] at h
    exact absurd (ih h) (Nat.ne_of_gt hm)

theorem le_ofDigitChars (n : Nat) (cs : List Char) : n ≤ Nat.ofDigitChars 10 cs n := by
  rw [Nat.ofDigitChars_eq_ofDigitChars_zero]
  exact Nat.le_add_right_of_le (Nat.le_mul_of_pos_left n (Nat.pow_pos (by decide)))

/-- Digits that make a number of 64 bits are all absorbed. -/
theorem absorb_eq {n : Nat} (hcs : ∀ c ∈ cs, c.isDigit = true)
    (h : Nat.ofDigitChars 10 cs n < UInt64.size) :
    absorb n cs = (Nat.ofDigitChars 10 cs n, []) := by
  induction cs generalizing n with
  | nil => rfl
  | cons c cs ih =>
    rw [List.forall_mem_cons] at hcs
    rw [Nat.ofDigitChars_cons] at h ⊢
    have hroom := Nat.lt_of_le_of_lt (le_ofDigitChars _ cs) h
    simp only [absorb, digit?_of_isDigit hcs.1, Option.getD_some, if_pos hroom]
    exact ih hcs.2 h

/-- An integer of 64 bits, signed or unsigned. -/
def Fits64 (n : Int) : Prop := Int64.minValue.toInt ≤ n ∧ n < UInt64.size

/-- The word that an integer is written as. -/
def NumberWord.ofInt (n : Int) : NumberWord := ⟨n < 0, Nat.toDigits 10 n.natAbs, none, none⟩

theorem NumberWord.ofInt_integer? {n : Int} (h : Fits64 n) : (ofInt n).integer? = some n := by
  have hmin : Int64.minValue.toInt = -2 ^ 63 := rfl
  have hsize : n.natAbs < UInt64.size := by
    simp only [Fits64, hmin, UInt64.size] at h ⊢
    omega
  have habsorb := absorb_eq (n := 0) isDigit_of_mem_toDigits
    (by rwa [Nat.ofDigitChars_ten_toDigits])
  rw [Nat.ofDigitChars_ten_toDigits] at habsorb
  simp only [Fits64, hmin] at h
  rcases Int.lt_or_le n 0 with hn | hn
  · have hlow :
        (decide (0 < n.natAbs) && decide (n.natAbs ≤ (-2 ^ 63 : Int).natAbs)) = true := by
      simp only [Bool.and_eq_true, decide_eq_true_eq]
      omega
    have habs : -(n.natAbs : Int) = n := by omega
    simp only [integer?, ofInt, habsorb, hmin, decide_eq_true hn, hlow, habs]
    rfl
  · have habs : (n.natAbs : Int) = n := by omega
    simp only [integer?, ofInt, habsorb, decide_eq_false (Int.not_lt.mpr hn), habs]
    rfl

theorem toList_toString (n : Int) :
    (toString n).toList = if n < 0 then '-' :: Nat.toDigits 10 n.natAbs
      else Nat.toDigits 10 n.natAbs := by
  rw [Int.toString_eq_repr, Int.repr_eq_if]
  rcases Int.lt_or_le n 0 with hn | hn
  · rw [if_neg (Int.not_le.mpr hn), if_pos hn, show (-n).toNat = n.natAbs by omega]
    simp
  · rw [if_pos hn, if_neg (Int.not_lt.mpr hn), show n.toNat = n.natAbs by omega, Nat.toList_repr]

theorem readNumber?_toString (n : Int) : readNumber? (toString n).toList = some (.ofInt n, []) := by
  have hsign : readMinus (toString n).toList = (decide (n < 0), Nat.toDigits 10 n.natAbs) := by
    rw [toList_toString]
    split
    case isTrue hn => simp [readMinus, hn]
    case isFalse hn => rw [readMinus_of_isDigit isDigit_of_mem_toDigits, decide_eq_false hn]
  rw [readNumber?_eq_some, hsign, spanDecimal_of_isDigit isDigit_of_mem_toDigits]
  refine ⟨⟨rfl, rfl⟩, ⟨Nat.toDigits_ne_nil, fun hzero => ?_⟩, [], rfl, rfl⟩
  simp [NumberWord.ofInt, eq_zero_of_head?_toDigits hzero]

theorem NumberWord.toJson_ofInt {n : Int} (h : Fits64 n) : (ofInt n).toJson = int n := by
  simp [toJson, ofInt_integer? h]

/-- The text of a float is one number word, and the word stands for that float again. -/
def Exact (x : Binary64) : Prop :=
  ∃ w, readNumber? (floatText x).toList = some (w, []) ∧ w.toJson = float x

/-- A number word starts with a minus sign or a digit. -/
theorem exists_head_of_readNumber? {w : NumberWord} (h : readNumber? cs = some (w, r)) :
    ∃ c cs', cs = c :: cs' ∧ (c = '-' ∨ isDecimal c = true) := by
  obtain ⟨hw, hd, -⟩ := readNumber?_eq_some.mp h
  cases cs with
  | nil => exact absurd hw.2.symm hd.1
  | cons c cs =>
    refine ⟨c, cs, rfl, ?_⟩
    by_cases hc : c = '-'
    · exact .inl hc
    · refine .inr (Bool.not_eq_false _ ▸ fun hdec => hd.1 ?_)
      rw [← hw.2]
      simp [readMinus, hc, spanDecimal_cons, hdec]

theorem absorb_lt {n : Nat} (h : n < UInt64.size) : (absorb n cs).1 < UInt64.size := by
  induction cs generalizing n with
  | nil => exact h
  | cons c cs ih =>
    simp only [absorb]
    split
    case isTrue hroom => exact ih hroom
    case isFalse => exact h

theorem powerOfTen_ge_one {k : Nat} (hk : k < 309) :
    (powerOfTen k).magnitude.2 ≤ (powerOfTen k).magnitude.1 := by
  have hlog : ¬ (Nat.log2 1 : Int) + 3 * k < -1080 := by omega
  have hquotient : powerOfTen k = Binary64.ofQuotient (1 * 10 ^ k) 1 := by
    rw [powerOfTen, Binary64.ofDecimal, if_neg Nat.one_ne_zero, if_neg (by omega), if_neg hlog]
    simp
  rw [hquotient]
  exact Binary64.ofQuotient_ge_one Nat.one_pos
    (by rw [Nat.one_mul]; exact Nat.one_le_pow _ _ (by decide))

theorem scaleDown_atMost {x : Binary64} {k : Nat} (h : x.AtMostPower 64) :
    (scaleDown x k).AtMostPower 64 := by
  induction x, k using scaleDown.induct
  all_goals rw [scaleDown]
  case case1 x k hk =>
    rw [if_pos hk]
    exact h.divMagnitude (powerOfTen_ge_one (by omega))
  case case2 x k hk hx =>
    rwa [if_neg hk, if_pos hx]
  case case3 x k hk hx ih =>
    rw [if_neg hk, if_neg hx]
    exact ih (h.divMagnitude (powerOfTen_ge_one (by decide)))

theorem scale?_isFinite {n : Nat} {e : Int} {x : Binary64} (hn : n < UInt64.size)
    (h : scale? n e = some x) : x.isFinite = true := by
  have hbound : (Binary64.ofNat n).AtMostPower 64 := Binary64.ofNat_atMost (Nat.le_of_lt hn)
  simp only [scale?] at h
  split at h
  · obtain rfl := Option.some.inj h
    exact (scaleDown_atMost hbound).isFinite (by decide)
  · split at h
    · split at h
      case isTrue hzero => exact Option.some.inj h ▸ Binary64.isFinite_of_isZero hzero
      case isFalse => cases h
    · split at h
      case isTrue => cases h
      case isFalse hinf =>
        obtain rfl := Option.some.inj h
        exact Binary64.ofQuotient_isFinite_or.resolve_right fun heq => hinf (congrArg _ heq)

theorem NumberWord.leading_lt (w : NumberWord) : w.leading.1 < UInt64.size := by
  have hwhole : (absorb 0 w.whole).1 < UInt64.size := absorb_lt (by decide)
  simp only [leading]
  split
  · exact hwhole
  · exact absorb_lt hwhole

theorem NumberWord.magnitude?_isFinite {w : NumberWord} {x : Binary64} (h : w.magnitude? = some x) :
    x.isFinite = true :=
  scale?_isFinite w.leading_lt h

theorem NumberWord.fits64_of_integer? {w : NumberWord} {n : Int} (h : w.integer? = some n) :
    Fits64 n := by
  have hlt : (absorb 0 w.whole).1 < UInt64.size := absorb_lt (by decide)
  have hmin : Int64.minValue.toInt = -2 ^ 63 := rfl
  simp only [integer?, hmin] at h
  simp only [Fits64, hmin]
  grind

end GraphSync.Json
