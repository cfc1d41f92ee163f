import GraphSync.Rule.Basic

namespace GraphSync

/-- Rules in the order of their registration. -/
structure RuleSet where
  rules : List Rule
  names_nodup : (rules.map Rule.name).Nodup
  types_nodup : (rules.map Rule.types).Nodup

inductive RuleError where
  | noRule (types : Sided TypeName)
  | unknown (name : RuleName)
  | duplicate (name : RuleName) (types : Sided TypeName)
  | invalid (name : RuleName) (fault : Rule.Fault)
  deriving DecidableEq

def RuleError.message : RuleError → String
  | noRule t => "No rule for type pair (" ++ t.left ++ ", " ++ t.right ++ ")"
  | unknown name => "Unknown rule: " ++ name
  | duplicate name t =>
    "Duplicate rule " ++ name ++ " for type pair (" ++ t.left ++ ", " ++ t.right ++ ")"
  | invalid name fault => "Invalid rule " ++ name ++ ": " ++ fault.message

namespace RuleSet

def empty : RuleSet := ⟨[], .nil, .nil⟩

instance : EmptyCollection RuleSet := ⟨empty⟩

def size (rs : RuleSet) : Nat := rs.rules.length

/-- The rule of a name. -/
def rule? (rs : RuleSet) (name : RuleName) : Option Rule := rs.rules.find? (·.name = name)

/-- The rule of a pair of types. -/
def ruleFor? (rs : RuleSet) (types : Sided TypeName) : Option Rule :=
  rs.rules.find? (·.types = types)

def contains (rs : RuleSet) (name : RuleName) : Bool := (rs.rule? name).isSome

def rule (rs : RuleSet) (name : RuleName) : Except RuleError Rule :=
  match rs.rule? name with
  | some r => .ok r
  | none => .error (.unknown name)

def ruleFor (rs : RuleSet) (types : Sided TypeName) : Except RuleError Rule :=
  match rs.ruleFor? types with
  | some r => .ok r
  | none => .error (.noRule types)

/-- Is the name or the type pair of `r` taken? -/
def Clashes (rs : RuleSet) (r : Rule) : Prop :=
  r.name ∈ rs.rules.map Rule.name ∨ r.types ∈ rs.rules.map Rule.types

instance (rs : RuleSet) (r : Rule) : Decidable (rs.Clashes r) :=
  inferInstanceAs (Decidable (_ ∨ _))

/-- Adds a rule at the end. A clash with an earlier rule is reported before any fault of the rule
itself. -/
def register (rs : RuleSet) (r : Rule) : Except RuleError RuleSet :=
  if h : rs.Clashes r then .error (.duplicate r.name r.types)
  else match r.fault? with
    | some fault => .error (.invalid r.name fault)
    | none => .ok
        { rules := rs.rules ++ [r]
          names_nodup := by
            rw [List.map_append, List.nodup_append]
            refine ⟨rs.names_nodup, by simp, fun a ha b hb => ?_⟩
            intro he
            subst he
            simp only [List.map_cons, List.map_nil, List.mem_singleton] at hb
            exact h (.inl (hb ▸ ha))
          types_nodup := by
            rw [List.map_append, List.nodup_append]
            refine ⟨rs.types_nodup, by simp, fun a ha b hb => ?_⟩
            intro he
            subst he
            simp only [List.map_cons, List.map_nil, List.mem_singleton] at hb
            exact h (.inr (hb ▸ ha)) }

/-- The set of the given rules, or the error of the first one that is refused. -/
def ofList (rules : List Rule) : Except RuleError RuleSet := rules.foldlM register ∅

/-- A child whose pair of types has no rule: the invoking rule and that pair. -/
def missing (rs : RuleSet) : List (RuleName × Sided TypeName) :=
  rs.rules.flatMap fun r =>
    (r.children.filter fun c => (rs.ruleFor? c.types).isNone).map fun c => (r.name, c.types)

def swap (rs : RuleSet) : RuleSet where
  rules := rs.rules.map Rule.swap
  names_nodup := by
    have h : rs.rules.map (Rule.name ∘ Rule.swap) = rs.rules.map Rule.name := rfl
    rw [List.map_map, h]
    exact rs.names_nodup
  types_nodup := by
    have h :
        (rs.rules.map Rule.swap).map Rule.types = (rs.rules.map Rule.types).map Sided.swap := by
      simp only [List.map_map]; rfl
    rw [h]
    exact List.Pairwise.map _ (fun a b hab e => hab (by simpa using congrArg Sided.swap e))
      rs.types_nodup

end RuleSet

end GraphSync
