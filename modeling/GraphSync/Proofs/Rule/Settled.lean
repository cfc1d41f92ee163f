import GraphSync.Walk.Binding
import Mathlib.Data.Bool.Basic

namespace GraphSync

/-- A NaN is no default. -/
theorem Value.isOrdered_of_isDefault {v : Value} (h : v.isDefault = true) : v.isOrdered = true := by
  cases v with
  | float x =>
    simp only [isDefault, Binary64.isZero, Bool.and_eq_true, beq_iff_eq] at h
    simp [isOrdered, Binary64.isNaN, h.1]
  | _ => rfl

namespace Binding

variable {b : Binding} {d : Direction} {shadow? : Option Shadow} {values : Sided Value}

/-- Values that are remembered are left as they are. -/
theorem verdict_remembered (b : Binding) {values : Sided Value}
    (h : ∀ s, (values.on s).isOrdered = true) :
    b.verdict .twoWay (some values) values = .keep (b.inStep values) := by
  have hsame (s : Side) : Binding.changed (some values) values s = false := by
    simp [changed, (Value.same_self_iff _).mpr (h s)]
  simp only [verdict, hsame]
  split <;> rfl

/-- A NaN counts as changed, whatever is remembered. -/
theorem isOrdered_of_unchanged {s : Side} (h : changed shadow? values s = false) :
    (values.on s).isOrdered = true := by
  unfold changed at h
  split at h
  · rename_i shadow
    rw [Bool.not_eq_false'] at h
    exact (Value.same_self_iff _).mp (Value.same_trans ((Value.same_comm _ _).trans h) h)
  · rw [Bool.not_eq_false'] at h
    exact Value.isOrdered_of_isDefault h

/-- A value that was converted from a side and written to the other one agrees with it, unless it is
a NaN. -/
theorem agreesFrom_copied (b : Binding) (values : Sided Value) (source : Side) :
    b.agreesFrom (b.copied values source) source =
      ((b.copied values source).on source.other).isOrdered := by
  rw [Bool.eq_iff_iff, ← Value.same_self_iff, agreesFrom, copied, Sided.on_put_other_self,
    Sided.on_put_self]

/-- Values that do not agree are left alone if neither of them has changed. -/
theorem unchanged_of_keep {inStep : Bool} (ha : b.agreesFrom values .left = false)
    (h : b.verdict .twoWay shadow? values = .keep inStep) :
    inStep = b.inStep values ∧ ∀ s, changed shadow? values s = false := by
  simp only [verdict, ha, Bool.false_eq_true, if_false] at h
  split at h <;> cases h
  rename_i hl hr
  refine ⟨rfl, fun s => ?_⟩
  cases s
  · exact hl
  · exact hr

/-- Values that were left alone are left alone again, whether they are remembered by now or not. -/
theorem verdict_keep_again {inStep : Bool} (h : b.verdict d shadow? values = .keep inStep) :
    b.verdict d (if inStep then some values else shadow?) values = .keep inStep := by
  cases d with
  | oneWay source forced => cases forced <;> exact h
  | twoWay =>
    cases inStep with
    | false => exact h
    | true =>
      cases ha : b.agreesFrom values .left with
      | true => simp [verdict, ha, Binding.inStep]
      | false =>
        obtain ⟨hin, hunchanged⟩ := unchanged_of_keep ha h
        rw [if_pos rfl, b.verdict_remembered fun s => isOrdered_of_unchanged (hunchanged s), hin]

/-- These values keep a binding at work: a forced direction finds a NaN where it has written, or a
two-way one compares values that do not agree with what it remembers of them, and one of them is a
NaN. -/
def Restless (b : Binding) (values : Sided Value) : Direction → Prop
  | .oneWay source forced => forced = true ∧ (values.on source.other).isOrdered = false
  | .twoWay => b.agreesFrom values .left = false ∧ ∃ s, (values.on s).isOrdered = false

/-- Values that were written are left alone, but for those that keep a binding at work. -/
theorem verdict_copy_again {source : Side} (h : b.verdict d shadow? values = .copy source)
    (hr : ¬ b.Restless (b.copied values source) d) :
    b.verdict d (some (b.copied values source)) (b.copied values source) =
      .keep (b.inStep (b.copied values source)) := by
  have hagrees := b.agreesFrom_copied values source
  cases d with
  | oneWay followed forced =>
    obtain rfl : source = followed := by
      cases forced <;> simp only [verdict] at h <;> split at h <;> cases h <;> rfl
    cases ho : ((b.copied values source).on source.other).isOrdered with
    | true =>
      rw [ho] at hagrees
      cases forced <;> simp [verdict, hagrees]
    | false =>
      cases forced with
      | true => exact absurd ⟨rfl, ho⟩ hr
      | false =>
        have hdefault : ((b.copied values source).on source.other).isDefault = false := by
          by_contra hd
          rw [Bool.not_eq_false] at hd
          exact Bool.noConfusion (ho.symm.trans (Value.isOrdered_of_isDefault hd))
        simp [verdict, hdefault]
  | twoWay =>
    cases ha : b.agreesFrom (b.copied values source) .left with
    | true => simp [verdict, ha]
    | false =>
      refine b.verdict_remembered fun s => ?_
      by_contra hs
      exact hr ⟨ha, s, by simpa using hs⟩

theorem verdict_of_restless {source : Side} (h : b.verdict d shadow? values = .copy source)
    (hr : b.Restless (b.copied values source) d) (inStep : Bool) :
    b.verdict d (some (b.copied values source)) (b.copied values source) ≠ .keep inStep := by
  have hagrees := b.agreesFrom_copied values source
  cases d with
  | oneWay followed forced =>
    obtain ⟨rfl, ho⟩ := hr
    obtain rfl : source = followed := by
      simp only [verdict] at h
      split at h <;> cases h
      rfl
    rw [ho] at hagrees
    simp [verdict, hagrees]
  | twoWay =>
    obtain ⟨ha, s, hs⟩ := hr
    intro hkeep
    have hunchanged := (unchanged_of_keep ha hkeep).2 s
    exact Bool.noConfusion (hs.symm.trans (isOrdered_of_unchanged hunchanged))

end Binding

end GraphSync
