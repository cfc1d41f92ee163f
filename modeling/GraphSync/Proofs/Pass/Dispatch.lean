import GraphSync.Proofs.Session.Source
import GraphSync.Proofs.Walk.Depth

namespace GraphSync

open Walk

namespace RuleSet

variable {rs : RuleSet} {s : Side} {g : Graph}

/-- The graph keeps to the types that the rules declare for that side: in an element of the type
that a rule is for, the members of each role that it walks have the type that its child declares. -/
def Fits (rs : RuleSet) (s : Side) (g : Graph) : Prop :=
  ∀ r ∈ rs.rules, ∀ child ∈ r.children, ∀ x, g.kind? x = some (r.types.on s) →
    ∀ m ∈ g.members x (child.roles.on s), g.kind? m = some (child.types.on s)

theorem fits_iff : rs.Fits s g ↔ ∀ r ∈ rs.rules, ∀ child ∈ r.children, ∀ x ∈ g.ids,
    g.kind? x = some (r.types.on s) →
    ∀ m ∈ g.members x (child.roles.on s), g.kind? m = some (child.types.on s) := by
  constructor
  · exact fun h r hr child hchild x _ => h r hr child hchild x
  · exact fun h r hr child hchild x hx =>
      h r hr child hchild x (Graph.mem_ids.mpr (Graph.contains_iff_kind.mpr ⟨_, hx⟩)) hx

instance (rs : RuleSet) (s : Side) (g : Graph) : Decidable (rs.Fits s g) :=
  decidable_of_iff' _ fits_iff

/-- If nothing is missing, every child has a rule. -/
theorem ruleFor?_ne_none (h : rs.missing = []) {r : Rule} (hr : r ∈ rs.rules) {child : Child}
    (hchild : child ∈ r.children) : rs.ruleFor? child.types ≠ none := by
  intro hnone
  have hmem : (r.name, child.types) ∈ rs.missing :=
    List.mem_flatMap.mpr
      ⟨r, hr, List.mem_map_of_mem (List.mem_filter.mpr ⟨hchild, by simp [hnone]⟩)⟩
  rw [h] at hmem
  cases hmem

end RuleSet

/-- The error is not that there is no rule for a pair of types. -/
def Error.Ruled (e : Error) : Prop := ∀ types, e ≠ .rule (.noRule types)

namespace OneWay

variable {k : OneWay} {a : Store} {w : State}

/-- The followed side is the same throughout, and what it lists has rules. -/
theorem allows_ruled (hm : k.rules.missing = [])
    (hf : k.rules.Fits k.source (a.graphs.on k.source)) :
    k.scheme.Allows k.direction Error.Ruled a := by
  refine ⟨fun _ _ _ => by simp, fun b types hacts hunruled => ?_⟩
  obtain ⟨s, hs, r, hr, child, hchild, x, m, kind, hx, hmem, hkind, rfl, hnone⟩ := hunruled
  obtain rfl : s = k.source := List.mem_singleton.mp hs
  have hsource : b.graphs.on k.source = a.graphs.on k.source := hacts.source
  rw [hsource] at hx hmem hkind
  obtain rfl : child.types.on k.source = kind :=
    Option.some.inj ((hf r hr child hchild x hx m hmem).symm.trans hkind)
  rw [Sided.arrange_on] at hnone
  exact absurd hnone (RuleSet.ruleFor?_ne_none hm hr hchild)

theorem ruled_syncRoots (hk : k.scheme.Consistent w.graphs w.pairs) (hm : k.rules.missing = [])
    (hf : k.rules.Fits k.source (w.graphs.on k.source)) :
    wp (syncRoots k.rules k.direction k.rootRule) (fun _ _ => True) (fun e _ => e.Ruled) w := by
  rw [syncRoots_eq]
  refine Scheme.wp_syncRootsBy_paired (k := k.scheme) (E := fun e _ => e.Ruled) hk
    (fun _ _ => by simp) (fun _ _ _ => by simp) (fun _ _ _ => by simp) fun r c w₁ hp => ?_
  refine Scheme.wp_run_purged (k := k.scheme) hp.consistent hp.entry hp.anchor hp.rule
    fun w₂ hpurged => ?_
  have hsource : w₂.graphs.on k.source = w.graphs.on k.source :=
    (source_freed hpurged.frees).trans (hp.graphs ▸ rfl)
  have hallow : k.scheme.Allows k.direction Error.Ruled w₂.store :=
    allows_ruled hm (hsource ▸ hf)
  exact wp_mono
    (Scheme.applies_start hallow (fun _ => by simp) r c w₂ (.refl hpurged.consistent) hpurged.rule
    hpurged.entry (hpurged.alive c hpurged.entry)) (fun _ _ _ => trivial) fun _ _ he => he.2.2

theorem ruled_carry (hk : k.scheme.Consistent w.graphs w.pairs) (hm : k.rules.missing = [])
    (hf : k.rules.Fits k.source (w.graphs.on k.source)) (c : Change) :
    wp (carry k.rules k.direction k.source c) (fun _ _ => True) (fun e _ => e.Ruled) w := by
  have hallow : k.scheme.Allows k.direction Error.Ruled w.store := allows_ruled hm hf
  have happly : k.scheme.Applies k.direction Error.Ruled { w with visited := [] }
      (start k.rules k.direction) :=
    Scheme.applies_start hallow fun _ => by simp
  exact wp_carryBy_traced (k := k.scheme) (I := fun _ => True) happly hallow
    (fun _ _ _ => by simp) hk (List.mem_singleton_self k.source) (fun _ _ _ => trivial)
    (fun _ _ _ _ he => he) fun _ _ _ _ _ _ => trivial

end OneWay

namespace Session

variable {s : Session} {source : Side} {forced : Bool}

theorem ruled_synchronize (hs : s.Reachable) (hd : s.options.direction = .oneWay source forced)
    (ho : s.options.propagation.isTwoWay = false) (hm : s.rules.missing = [])
    (hf : s.rules.Fits source (s.graphs.on source)) {e : Error} (he : s.synchronize.1 = .error e) :
    e.Ruled := by
  have h := hs.follows hd ho
  have hk := consistent_walkState h.toDirected hs.consistent
  have hcollect : s.rules.Fits source (s.collect.graphs.on source) := by
    rw [collect_graphs]
    exact hf
  have hpass := OneWay.ruled_syncRoots (k := s.oneWay source forced) hk hm hcollect
  refine (wp_iff.mp hpass).2 e ?_
  have hdirection : (s.oneWay source forced).direction = s.options.direction := hd.symm
  rw [hdirection]
  exact error_of_synchronize he

theorem ruled_flush (hs : s.Reachable) (hd : s.options.direction = .oneWay source forced)
    (ho : s.options.propagation.isTwoWay = false) (hm : s.rules.missing = [])
    (hf : s.rules.Fits source (s.graphs.on source)) {e : Error} (he : s.flush.1 = .error e) :
    e.Ruled := by
  have h := hs.follows hd ho
  have hk := consistent_walkState h.toDirected hs.consistent
  obtain ⟨log, p, rest, w, hstops, _⟩ := stops_of_flush he
  obtain ⟨w₁, hworks, hrun⟩ := hstops.run
  obtain ⟨hk₁, hsource⟩ := hworks.source_kept h hk
  have hfits : s.rules.Fits source (w₁.graphs.on source) := by
    have hside : w₁.graphs.on source = s.collect.graphs.on source := hsource
    rw [hside, collect_graphs]
    exact hf
  rw [h.flushDirection, h.eq_source hstops.accepted] at hrun
  exact (wp_iff.mp (OneWay.ruled_carry hk₁ hm hfits p.change)).2 e (congrArg Prod.fst hrun)

theorem ruled_edit (hs : s.Reachable) (hd : s.options.direction = .oneWay source forced)
    (ho : s.options.propagation.isTwoWay = false) (hm : s.rules.missing = []) {side : Side}
    {es : List Edit} (hf : s.rules.Fits source ((s.perform (.edit side es)).graphs.on source))
    {e : Error} (he : (s.edit side fun g => ((), g.editAll es)).2.1 = .error e) : e.Ruled := by
  let t := s.performAll [.collect, .mutate side es]
  have ht : t.Reachable := hs.performAll _
  have hedit : (s.edit side fun g => ((), g.editAll es)).2 =
      if s.options.propagation.isImmediate then t.flush else (.ok {}, t.collect) := rfl
  by_cases himmediate : s.options.propagation.isImmediate = true
  · rw [if_pos himmediate] at hedit
    rw [hedit] at he
    have hsource :
        (s.perform (.edit side es)).graphs.on source = (t.graphs.on source).takeChanges.2 :=
      (congrArg (·.2.graphs.on source) hedit).trans (source_flush (ht.follows hd ho) ht.consistent)
    rw [hsource] at hf
    exact ruled_flush ht hd ho hm hf he
  · rw [if_neg himmediate] at hedit
    rw [hedit] at he
    cases he

/-- **A checked set of rules is never short of one.** If every child has a rule for the types that
it declares, then of a session that does not carry edits both ways no pass, no flush and no edit
ends for want of a rule, as long as the source side keeps to the declared types. What the other side
holds, or which pairs are left from earlier, does not matter. -/
theorem rule_always_found (hs : s.Reachable) (hd : s.options.direction = .oneWay source forced)
    (ho : s.options.propagation.isTwoWay = false) (hm : s.rules.missing = []) :
    (s.rules.Fits source (s.graphs.on source) → ∀ types,
      s.synchronize.1 ≠ .error (.rule (.noRule types)) ∧
      s.flush.1 ≠ .error (.rule (.noRule types))) ∧
    ∀ side es, s.rules.Fits source ((s.perform (.edit side es)).graphs.on source) → ∀ types,
      (s.edit side fun g => ((), g.editAll es)).2.1 ≠ .error (.rule (.noRule types)) := by
  refine ⟨fun hf types => ⟨fun he => ?_, fun he => ?_⟩, fun side es hf types he => ?_⟩
  · exact ruled_synchronize hs hd ho hm hf he types rfl
  · exact ruled_flush hs hd ho hm hf he types rfl
  · exact ruled_edit hs hd ho hm hf he types rfl

/-- The item was a bag, and its copy is met where a box is declared: a pass, a flush and one more
edit, which brings a second item, all find the rules that they need. -/
theorem rule_always_found_climbing :
    let s := Sample.climbing
    let es : List Edit := [.add "Item", .push ⟨0⟩ "x" ⟨2⟩]
    (s.Reachable ∧ s.options.direction = .oneWay .left false ∧
      s.options.propagation.isTwoWay = false ∧
      s.rules.missing = [] ∧ s.rules.Fits .left (s.graphs.on .left) ∧
      s.rules.Fits .left ((s.perform (.edit .left es)).graphs.on .left)) ∧
    (s.synchronize.1.toOption.isSome = true ∧ s.flush.1 = .ok { applied := 2, skipped := 1 } ∧
      (s.edit .left fun g => ((), g.editAll es)).2.1 = .ok { applied := 2, skipped := 2 }) ∧
    ∀ types, (s.synchronize.1 ≠ .error (.rule (.noRule types)) ∧
      s.flush.1 ≠ .error (.rule (.noRule types))) ∧
      (s.edit .left fun g => ((), g.editAll es)).2.1 ≠ .error (.rule (.noRule types)) := by
  intro s es
  have hs : s.Reachable := Sample.reachable_climbing
  obtain ⟨⟨hd, ho, hm, hf, hedited⟩, hruns⟩ : (s.options.direction = .oneWay .left false ∧
      s.options.propagation.isTwoWay = false ∧ s.rules.missing = [] ∧
      s.rules.Fits .left (s.graphs.on .left) ∧
      s.rules.Fits .left ((s.perform (.edit .left es)).graphs.on .left)) ∧
      s.synchronize.1.toOption.isSome = true ∧ s.flush.1 = .ok { applied := 2, skipped := 1 } ∧
      (s.edit .left fun g => ((), g.editAll es)).2.1 = .ok { applied := 2, skipped := 2 } := by
    decide +kernel
  obtain ⟨hpasses, hedits⟩ := rule_always_found hs hd ho hm
  exact ⟨⟨hs, hd, ho, hm, hf, hedited⟩, hruns, fun types =>
    ⟨hpasses hf types, hedits .left es hedited types⟩⟩

/-- Where the source side holds an element of a type that no child declares, no rule is found for
it. -/
example :
    let s := Sample.halting
    s.rules.missing = [] ∧ ¬ s.rules.Fits .left (s.graphs.on .left) ∧
      s.synchronize.1 = .error (.rule (.noRule ⟨"Switch", "Node"⟩)) := by
  decide +kernel

end Session

end GraphSync
