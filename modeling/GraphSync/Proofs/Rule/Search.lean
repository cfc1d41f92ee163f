import GraphSync.Rule.Set
import Mathlib.Data.List.Nodup

namespace GraphSync.RuleSet

variable {rs : RuleSet} {r : Rule}

/-- No rule binds two bindings to one attribute of that side. -/
def UniqueAttributes (rs : RuleSet) (s : Side) : Prop :=
  ∀ r ∈ rs.rules, (r.bindings.map (·.attributes.on s)).Nodup

/-- No rule has two children for one role of that side. -/
def UniqueRoles (rs : RuleSet) (s : Side) : Prop :=
  ∀ r ∈ rs.rules, (r.children.map (·.roles.on s)).Nodup

/-- No two rules are for one type of that side. -/
def UniqueTypes (rs : RuleSet) (s : Side) : Prop := (rs.rules.map (·.types.on s)).Nodup

/-- On both sides types tell rules apart, and within a rule attributes tell bindings and roles tell
children apart. -/
structure Unambiguous (rs : RuleSet) : Prop where
  types : ∀ s, rs.UniqueTypes s
  attributes : ∀ s, rs.UniqueAttributes s
  roles : ∀ s, rs.UniqueRoles s

instance (rs : RuleSet) (s : Side) : Decidable (rs.UniqueTypes s) :=
  inferInstanceAs (Decidable (List.Nodup _))

instance (rs : RuleSet) (s : Side) : Decidable (rs.UniqueAttributes s) :=
  inferInstanceAs (Decidable (∀ r ∈ rs.rules, _))

instance (rs : RuleSet) (s : Side) : Decidable (rs.UniqueRoles s) :=
  inferInstanceAs (Decidable (∀ r ∈ rs.rules, _))

instance (rs : RuleSet) : Decidable rs.Unambiguous :=
  decidable_of_iff
      ((∀ s ∈ Side.all, rs.UniqueTypes s) ∧ (∀ s ∈ Side.all, rs.UniqueAttributes s) ∧
      ∀ s ∈ Side.all, rs.UniqueRoles s)
    ⟨fun h =>
      ⟨fun s => h.1 s (by cases s <;> simp [Side.all]), fun s =>
        h.2.1 s (by cases s <;> simp [Side.all]),
        fun s => h.2.2 s (by cases s <;> simp [Side.all])⟩,
      fun h => ⟨fun s _ => h.types s, fun s _ => h.attributes s, fun s _ => h.roles s⟩⟩

theorem mem_of_rule? {name : RuleName} (h : rs.rule? name = some r) :
    r ∈ rs.rules ∧ r.name = name :=
  ⟨List.mem_of_find?_eq_some h, by simpa using List.find?_some h⟩

theorem mem_of_ruleFor? {types : Sided TypeName} (h : rs.ruleFor? types = some r) :
    r ∈ rs.rules ∧ r.types = types :=
  ⟨List.mem_of_find?_eq_some h, by simpa using List.find?_some h⟩

theorem rule?_of_mem (h : r ∈ rs.rules) : rs.rule? r.name = some r := by
  cases hf : rs.rule? r.name with
  | none => simpa using List.find?_eq_none.mp hf r h
  | some r' =>
    obtain ⟨hm, hn⟩ := mem_of_rule? hf
    rw [List.inj_on_of_nodup_map rs.names_nodup hm h hn]

theorem ruleFor?_of_mem (h : r ∈ rs.rules) : rs.ruleFor? r.types = some r := by
  cases hf : rs.ruleFor? r.types with
  | none => simpa using List.find?_eq_none.mp hf r h
  | some r' =>
    obtain ⟨hm, ht⟩ := mem_of_ruleFor? hf
    rw [List.inj_on_of_nodup_map rs.types_nodup hm h ht]

theorem UniqueTypes.eq {r' : Rule} {s : Side} (h : rs.UniqueTypes s) (hr : r ∈ rs.rules)
    (hr' : r' ∈ rs.rules) (ht : r.types.on s = r'.types.on s) : r = r' :=
  List.inj_on_of_nodup_map h hr hr' ht

theorem rule_eq (rs : RuleSet) (name : RuleName) : rs.rule name = match rs.rule? name with
    | some r => .ok r
    | none => .error (.unknown name) := rfl

theorem ruleFor_eq (rs : RuleSet) (types : Sided TypeName) :
    rs.ruleFor types = match rs.ruleFor? types with
    | some r => .ok r
    | none => .error (.noRule types) := rfl

end GraphSync.RuleSet

namespace GraphSync.Rule

theorem mem_bindingsOn {r : Rule} {s : Side} {name : AttributeName} {bi : Binding × Nat} :
    bi ∈ r.bindingsOn s name ↔ bi ∈ r.numbered ∧ bi.1.attributes.on s = name := by
  simp [bindingsOn]

theorem mem_childrenOn {r : Rule} {s : Side} {role : RoleName} {child : Child} :
    child ∈ r.childrenOn s role ↔ child ∈ r.children ∧ child.roles.on s = role := by
  simp [childrenOn]

theorem exists_mem_numbered {r : Rule} {b : Binding} (h : b ∈ r.bindings) :
    ∃ index, (b, index) ∈ r.numbered := by
  obtain ⟨i, hi, rfl⟩ := List.getElem_of_mem h
  exact ⟨i, List.mem_zipIdx_iff_getElem?.mpr (List.getElem?_eq_getElem hi)⟩

/-- A position tells a binding. -/
theorem mem_bindings {r : Rule} {bi : Binding × Nat} (h : bi ∈ r.numbered) :
    bi.1 ∈ r.bindings := by
  rw [numbered, List.mem_zipIdx_iff_getElem?] at h
  exact List.mem_of_getElem? h

theorem eq_of_index {r : Rule} {bi bi' : Binding × Nat} (h : bi ∈ r.numbered)
    (h' : bi' ∈ r.numbered) (he : bi.2 = bi'.2) : bi = bi' := by
  rw [numbered, List.mem_zipIdx_iff_getElem?] at h h'
  rw [he, h'] at h
  exact Prod.ext (Option.some.inj h).symm he

theorem indices_nodup (r : Rule) : (r.numbered.map Prod.snd).Nodup := by
  rw [numbered, List.zipIdx_map_snd]
  exact List.nodup_range' _

theorem numbered_nodup (r : Rule) : r.numbered.Nodup := r.indices_nodup.of_map _

/-- So does an attribute that no two bindings share. -/
theorem eq_of_attribute {r : Rule} {s : Side} (hn : (r.bindings.map (·.attributes.on s)).Nodup)
    {bi bi' : Binding × Nat} (h : bi ∈ r.numbered) (h' : bi' ∈ r.numbered)
    (he : bi.1.attributes.on s = bi'.1.attributes.on s) : bi = bi' := by
  have hm : r.bindings.map (·.attributes.on s) = r.numbered.map (·.1.attributes.on s) := by
    have hf : r.numbered.map Prod.fst = r.bindings := List.zipIdx_map_fst _ _
    rw [← hf, List.map_map]
    rfl
  rw [hm] at hn
  exact List.inj_on_of_nodup_map hn h h' he

end GraphSync.Rule
