import GraphSync.Rule.Set
import GraphSync.Walk.Binding
import Mathlib.Data.List.Basic

namespace GraphSync

namespace Binding

variable (b : Binding) (values : Sided Value) (s : Side)

@[simp] theorem convert_swap (v : Value) : b.swap.convert s v = b.convert s.other v := by
  unfold convert swap
  cases b.conversion with
  | none => rfl
  | some c => exact congrFun (c.on_swap s) v

@[simp] theorem agreesFrom_swap :
    b.swap.agreesFrom values.swap s = b.agreesFrom values s.other := by
  simp only [agreesFrom, convert_swap, Sided.on_swap]

@[simp] theorem inStep_swap : b.swap.inStep values.swap = b.inStep values := by
  simp only [inStep, agreesFrom_swap]
  exact Bool.or_comm _ _

@[simp] theorem copied_swap : b.swap.copied values.swap s = (b.copied values s.other).swap := by
  simp only [copied, convert_swap, Sided.on_swap, Sided.swap_put, Side.other_other]

end Binding

/-- What is to be done, on the exchanged sides. -/
def Verdict.swap : Verdict → Verdict
  | keep inStep => keep inStep
  | copy source => copy source.other
  | conflict => conflict

/-- What was remembered plays no part. Two-way passes are left out, which look from the left side
first. -/
theorem Binding.verdict_swap (b : Binding) (source : Side) (forced : Bool)
    (shadow? shadow?' : Option Shadow) (values : Sided Value) :
    b.swap.verdict (.oneWay source.other forced) shadow?' values.swap =
      (b.verdict (.oneWay source forced) shadow? values).swap := by
  cases forced <;>
    simp only [verdict, agreesFrom_swap, inStep_swap, Sided.on_swap, Side.other_other] <;>
      split <;> rfl

/-- No double edit is a conflict for a direction that follows one side. -/
theorem Binding.verdict_ne_conflict (b : Binding) (source : Side) (forced : Bool)
    (shadow? : Option Shadow) (values : Sided Value) :
    b.verdict (.oneWay source forced) shadow? values ≠ .conflict := by
  cases forced <;> simp only [verdict] <;> split <;> simp

theorem Child.roles_swap (c : Child) (s : Side) : c.swap.roles.on s.other = c.roles.on s := by
  simp [swap]

namespace Rule

variable (r : Rule) (s : Side)

theorem numbered_swap : r.swap.numbered = r.numbered.map fun bi => (bi.1.swap, bi.2) := by
  simp only [numbered, swap, List.zipIdx_map]
  rfl

theorem bindingsOn_swap (name : AttributeName) :
    r.swap.bindingsOn s.other name = (r.bindingsOn s name).map fun bi => (bi.1.swap, bi.2) := by
  simp only [bindingsOn, numbered_swap, List.filter_map]
  congr 2
  funext bi
  simp [Binding.swap]

theorem childrenOn_swap (role : RoleName) :
    r.swap.childrenOn s.other role = (r.childrenOn s role).map Child.swap := by
  simp only [childrenOn, swap, List.filter_map]
  congr 2
  funext c
  simp [Child.swap]

end Rule

namespace RuleSet

variable (rs : RuleSet)

theorem rule?_swap (name : RuleName) : rs.swap.rule? name = (rs.rule? name).map Rule.swap := by
  simp only [rule?, swap, List.find?_map]
  rfl

theorem ruleFor?_swap (types : Sided TypeName) :
    rs.swap.ruleFor? types.swap = (rs.ruleFor? types).map Rule.swap := by
  simp only [ruleFor?, swap, List.find?_map]
  congr 2
  funext r
  exact decide_eq_decide.mpr Sided.swap_inj

@[simp] theorem size_swap : rs.swap.size = rs.size := List.length_map _

end RuleSet

def Rule.Fault.swap : Rule.Fault → Rule.Fault
  | rootTypes found expected => rootTypes found.swap expected.swap
  | selfApplication pair => selfApplication pair.swap
  | fault => fault

def RuleError.swap : RuleError → RuleError
  | noRule types => noRule types.swap
  | unknown name => unknown name
  | duplicate name types => duplicate name types.swap
  | invalid name fault => invalid name fault.swap

end GraphSync
