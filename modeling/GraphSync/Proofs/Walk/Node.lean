import GraphSync.Proofs.Correspondence.Consistent
import GraphSync.Proofs.Correspondence.OneWay
import GraphSync.Proofs.Rule.Search
import Mathlib.Data.List.Perm.Subperm
import Mathlib.Data.List.ProdSigma
import Mathlib.Logic.Relation

namespace GraphSync

/-- A rule at an element of the source side. -/
structure Node where
  element : ElementId
  rule : Rule

namespace OneWay

open Relation

variable {k : OneWay} {g : Graph} {n n' : Node}

/-- The rule for a member of a child's role. -/
def resolve? (k : OneWay) (g : Graph) (child : Child) (member : ElementId) : Option Rule :=
  (g.kind? member).bind fun kind =>
    k.rules.ruleFor? (k.source.arrange kind (child.types.on k.target))

/-- The rule of `n` has a child, and its element a member of the child's role, that asks for
`n'`. -/
def Step (k : OneWay) (g : Graph) (n n' : Node) : Prop :=
  ∃ child ∈ n.rule.children, n'.element ∈ g.members n.element (child.roles.on k.source) ∧
    k.resolve? g child n'.element = some n'.rule

/-- The root rule at the root leads to `n`. -/
def Reached (k : OneWay) (g : Graph) (n : Node) : Prop :=
  ∃ r, k.rules.rule? k.rootRule = some r ∧ ReflTransGen (k.Step g) ⟨g.root, r⟩ n

/-- Every member that is reached has a rule. -/
def Resolves (k : OneWay) (g : Graph) : Prop :=
  ∀ n, k.Reached g n → ∀ child ∈ n.rule.children,
    ∀ m ∈ g.members n.element (child.roles.on k.source), ∃ r, k.resolve? g child m = some r

/-- Nothing that is reached leads back to itself. -/
def Acyclic (k : OneWay) (g : Graph) : Prop :=
  ∀ n, k.Reached g n → ¬ TransGen (k.Step g) n n

/-- A rule of the set leads back to the root, under the root rule. -/
def Returns (k : OneWay) (g : Graph) : Prop :=
  ∃ n n', n.rule ∈ k.rules.rules ∧ k.Step g n n' ∧ n'.element = g.root ∧
    n'.rule.name = k.rootRule

/-- The roots have the types of the root rule. -/
def RootsFit (k : OneWay) (graphs : Sided Graph) : Prop :=
  ∃ r, k.rules.rule? k.rootRule = some r ∧
    ∀ s, (graphs.on s).kind? (graphs.on s).root = some (r.types.on s)

theorem resolve?_eq_some {child : Child} {m : ElementId} {r : Rule} :
    k.resolve? g child m = some r ↔ ∃ kind, g.kind? m = some kind ∧
      k.rules.ruleFor? (k.source.arrange kind (child.types.on k.target)) = some r :=
  Option.bind_eq_some_iff

theorem mem_of_resolve? {child : Child} {m : ElementId} {r : Rule}
    (h : k.resolve? g child m = some r) : r ∈ k.rules.rules := by
  obtain ⟨kind, _, hr⟩ := resolve?_eq_some.mp h
  exact (RuleSet.mem_of_ruleFor? hr).1

theorem Reached.step (h : k.Reached g n) (hs : k.Step g n n') : k.Reached g n' := by
  obtain ⟨r, hr, ht⟩ := h
  exact ⟨r, hr, ht.tail hs⟩

/-- Where no role holds the root, nothing leads back to it. -/
theorem not_returns (h : ∀ x role, g.root ∉ g.members x role) : ¬ k.Returns g := by
  rintro ⟨n, n', _, ⟨_, _, hm, _⟩, he, _⟩
  exact h _ _ (he ▸ hm)

/-- What is reached is a rule of the set at a live element. -/
theorem Reached.known (h : k.Reached g n) (hg : g.Sound) :
    g.contains n.element = true ∧ n.rule ∈ k.rules.rules := by
  obtain ⟨r, hr, ht⟩ := h
  cases ht with
  | refl => exact ⟨hg.root_live, (RuleSet.mem_of_rule? hr).1⟩
  | tail _ hs =>
    obtain ⟨child, _, hm, hr⟩ := hs
    exact ⟨hg.members_live _ _ _ hm, mem_of_resolve? hr⟩

/-- An element and the name of a rule tell what is reached. -/
theorem Reached.ext (h : k.Reached g n) (h' : k.Reached g n') (hg : g.Sound)
    (he : n.element = n'.element) (hname : n.rule.name = n'.rule.name) : n = n' := by
  have hr := RuleSet.rule?_of_mem (h.known hg).2
  have hr' := RuleSet.rule?_of_mem (h'.known hg).2
  rw [hname, hr'] at hr
  cases n
  cases n'
  simp_all

end OneWay

/-- Rules at elements that differ in one or the other are at most as many as there are rules and
live elements. -/
theorem RuleSet.length_le_of_nodup {rules : RuleSet} {g : Graph}
    (keys : List (ElementId × RuleName)) (hn : keys.Nodup)
    (hk : ∀ key ∈ keys, g.contains key.1 = true ∧ ∃ r, rules.rule? key.2 = some r) :
    keys.length ≤ g.size * rules.size := by
  have hs : keys ⊆ g.ids ×ˢ rules.rules.map Rule.name := by
    intro key h
    obtain ⟨he, r, hr⟩ := hk key h
    obtain ⟨hm, hname⟩ := RuleSet.mem_of_rule? hr
    exact List.mem_product.mpr ⟨Graph.mem_ids.mpr he, List.mem_map.mpr ⟨r, hm, hname⟩⟩
  have hl := (List.subperm_of_subset hn hs).length_le
  rwa [List.length_product, Graph.ids, List.length_map, List.length_map] at hl

/-- There are at most as many pairs as there are rules at live elements of a side. -/
theorem Scheme.Consistent.length_entries_le {k : Scheme} {graphs : Sided Graph}
    {t : Correspondences} (h : k.Consistent graphs t) (s : Side)
    (hl : ∀ c ∈ t.entries, (graphs.on s).contains (c.element s) = true) :
    t.entries.length ≤ (graphs.on s).size * k.rules.size := by
  have hkeys : (t.entries.map fun c => (c.element s, c.rule)).Nodup := by
    refine List.Nodup.map_on ?_ (h.listed.sorted.imp fun hlt he => by simp [he] at hlt)
    intro c hc c' hc' he
    obtain ⟨hel, hrule⟩ := Prod.mk.inj he
    exact h.key_inj s c hc c' hc' hrule hel
  have hlive : ∀ key ∈ t.entries.map fun c => (c.element s, c.rule),
      (graphs.on s).contains key.1 = true ∧ ∃ r, k.rules.rule? key.2 = some r := by
    intro key hkey
    obtain ⟨c, hc, rfl⟩ := List.mem_map.mp hkey
    exact ⟨hl c hc, (h.typed c hc).imp fun _ hr => hr.1⟩
  have hle := RuleSet.length_le_of_nodup _ hkeys hlive
  rwa [List.length_map] at hle

end GraphSync
