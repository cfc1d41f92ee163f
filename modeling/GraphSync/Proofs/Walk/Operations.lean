import GraphSync.Proofs.Correspondence.Counterpart
import GraphSync.Proofs.Correspondence.OneWay
import GraphSync.Proofs.Rule.Search
import GraphSync.Proofs.Walk.Outcome

namespace GraphSync

namespace Binding

variable {b : Binding} {d : Direction} {shadow? : Option Shadow} {values : Sided Value}

/-- Values that are left as they are are remembered when they agree. -/
theorem inStep_of_verdict {inStep : Bool} (h : b.verdict d shadow? values = .keep inStep) :
    inStep = b.inStep values := by
  unfold verdict at h
  split at h <;> split at h
  any_goals split at h
  all_goals cases h
  all_goals rfl

/-- Values go from a side that is followed to the other one. -/
theorem source_of_verdict {source : Side} (h : b.verdict d shadow? values = .copy source) :
    source ∈ d.authorities := by
  unfold verdict at h
  split at h <;> split at h
  any_goals split at h
  all_goals cases h
  all_goals simp [Direction.authorities, Side.all]

end Binding

/-- The values that a binding relates on a pair. -/
def Correspondence.values (graphs : Sided Graph) (c : Correspondence) (b : Binding) : Sided Value :=
  ⟨graphs.left.reading (c.element .left) b.attributes.left,
    graphs.right.reading (c.element .right) b.attributes.right⟩

namespace Walk

variable {w : State} {E : Error → State → Prop}

/-- The values that a binding relates on two elements. -/
def State.values (w : State) (pair : Sided ElementId) (b : Binding) : Sided Value :=
  ⟨w.graphs.left.reading pair.left b.attributes.left,
    w.graphs.right.reading pair.right b.attributes.right⟩

@[simp] theorem State.values_on (w : State) (pair : Sided ElementId) (b : Binding) (s : Side) :
    (w.values pair b).on s = (w.graphs.on s).reading (pair.on s) (b.attributes.on s) := by
  cases s <;> rfl

/-- The members of a role of a pair on one side. -/
def State.role (w : State) (c : Correspondence) (child : Child) (s : Side) : List ElementId :=
  (w.graphs.on s).members (c.element s) (child.roles.on s)

/-- The values that are remembered for a binding of a pair. -/
def State.shadow? (w : State) (id : CorrespondenceId) (index : Nat) : Option Shadow :=
  (w.pairs.get? id).bind (·.shadow? index)

theorem State.shadow?_of_mem {c : Correspondence} (h : w.pairs.Listed) (hc : c ∈ w.pairs.entries)
    (index : Nat) : w.shadow? c.id index = c.shadow? index := by
  rw [State.shadow?, h.get?_eq hc]
  rfl

theorem State.shadow?_of_le {id : CorrespondenceId} (h : w.pairs.Listed)
    (hi : w.pairs.next ≤ id.index) (index : Nat) : w.shadow? id index = none := by
  rw [State.shadow?, h.get?_of_le hi]
  rfl

/-- The conflict that a binding of a pair is in. -/
def State.conflict (w : State) (rule : RuleName) (id : CorrespondenceId) (pair : Sided ElementId)
    (b : Binding) : Conflict :=
  { correspondence := id, rule, elements := pair, attributes := b.attributes, values :=
    w.values pair b }

/-- A binding is left as it is, or reported, or the value of one side goes to the other one. -/
theorem wp_applyBinding {Q : BindingOutcome → State → Prop} {d : Direction} {rule : RuleName}
    {id : CorrespondenceId} {pair : Sided ElementId} {b : Binding} {index : Nat}
    (dead : ∀ s, (w.graphs.on s).contains (pair.on s) = false →
      E (.graph (.unknownElement (pair.on s))) w)
    (keep : (∀ s, (w.graphs.on s).contains (pair.on s) = true) → ∀ inStep,
      b.verdict d (w.shadow? id index) (w.values pair b) = .keep inStep →
      Q .unchanged
        (if inStep then { w with pairs := w.pairs.recordShadow id index (w.values pair b) } else w))
    (conflict : (∀ s, (w.graphs.on s).contains (pair.on s) = true) →
      b.verdict d (w.shadow? id index) (w.values pair b) = .conflict →
      Q .conflict { w with report := w.report.addConflict (w.conflict rule id pair b) })
    (copy : (∀ s, (w.graphs.on s).contains (pair.on s) = true) → ∀ source,
      b.verdict d (w.shadow? id index) (w.values pair b) = .copy source → ∀ g',
      (w.graphs.on source.other).Rewrites g' (pair.on source.other)
        (·.setValue (b.attributes.on source.other)
          ((b.copied (w.values pair b) source).on source.other)) →
      Q .written { w with
        graphs := w.graphs.put source.other g'
        pairs := w.pairs.recordShadow id index (b.copied (w.values pair b) source)
        report := { w.report with attributesUpdated := w.report.attributesUpdated + 1 } }) :
    wp (applyBinding d rule id pair b index) Q E w := by
  simp only [applyBinding, wp_bind, wp_get, wp_liftGraph, Graph.value_eq]
  cases hl : w.graphs.left.contains pair.left with
  | false => simpa [Sided.on] using dead .left hl
  | true =>
    cases hr : w.graphs.right.contains pair.right with
    | false => simpa [Sided.on] using dead .right hr
    | true =>
      have live (s : Side) : (w.graphs.on s).contains (pair.on s) = true := by
        cases s
        · exact hl
        · exact hr
      have hvalues : (⟨w.graphs.left.reading pair.left b.attributes.left,
          w.graphs.right.reading pair.right b.attributes.right⟩ : Sided Value) =
            w.values pair b := rfl
      have hshadow : (w.pairs.get? id).bind (·.shadow? index) = w.shadow? id index := rfl
      simp only [if_true]
      rw [hvalues, hshadow]
      cases hv : b.verdict d (w.shadow? id index) (w.values pair b) with
      | keep inStep =>
        have hq := keep live inStep hv
        cases inStep with
        | true => exact hq
        | false => exact hq
      | conflict => exact conflict live hv
      | copy source =>
        rcases Graph.setValue_eq (w.graphs.on source.other) (pair.on source.other)
            (b.attributes.on source.other)
            ((b.copied (w.values pair b) source).on source.other) with ⟨hn, _⟩ | ⟨_, g', he, hw⟩
        · rw [live source.other] at hn
          cases hn
        · simp only [wp_bind]
          change wp (onGraph source.other fun g =>
            g.setValue (pair.on source.other) (b.attributes.on source.other)
            ((b.copied (w.values pair b) source).on source.other)) _ E w
          rw [wp_onGraph, he]
          exact copy live source hv g' hw

/-- A counterpart is put into a role unless it is there. -/
theorem wp_link {Q : Unit → State → Prop} {auth : Side} {owner : ElementId} {role : RoleName}
    {y : ElementId} {earlier later : List ElementId}
    (dead : ∀ e, (w.graphs.on auth.other).contains owner = false ∨
      (w.graphs.on auth.other).contains y = false → E (.graph e) w)
    (there : y ∈ (w.graphs.on auth.other).members owner role → Q () w)
    (put : (w.graphs.on auth.other).contains owner = true →
      (w.graphs.on auth.other).contains y = true →
      y ∉ (w.graphs.on auth.other).members owner role → ∀ g',
      (w.graphs.on auth.other).Relists g' owner role
        (((w.graphs.on auth.other).members owner role).insertIdx
        (w.pairs.slot auth ((w.graphs.on auth.other).members owner role) earlier later) y) →
      Q () { w with
        graphs := w.graphs.put auth.other g'
        report := { w.report with referencesLinked := w.report.referencesLinked + 1 } }) :
    wp (link auth owner role y earlier later) Q E w := by
  have hs := w.pairs.slot_le auth ((w.graphs.on auth.other).members owner role) earlier later
  generalize hi :
    w.pairs.slot auth ((w.graphs.on auth.other).members owner role) earlier later = index at put hs
  simp only [link, wp_bind, wp_graph, wp_liftGraph, wp_pairs, wp_ite, Graph.references_eq]
  cases ho : (w.graphs.on auth.other).contains owner with
  | false => simpa using dead _ (.inl ho)
  | true =>
    simp only [if_true]
    split
    · rename_i hp
      exact there hp
    · rename_i hp
      rw [hi, wp_onGraph]
      cases ht : (w.graphs.on auth.other).contains y with
      | false =>
        rw [Graph.insertReference_unknown ht]
        exact dead _ (.inr ht)
      | true =>
        obtain ⟨g', he, hw⟩ := Graph.insertReference_ok ho ht hp hs
        rw [he]
        exact put ho ht hp g' (hw.relists ho)

/-- A member is taken out of a role, and counted if it was there. -/
theorem wp_unlink {Q : Unit → State → Prop} {s : Side} {owner e : ElementId} {role : RoleName}
    (dead : (w.graphs.on s).contains owner = false → E (.graph (.unknownElement owner)) w)
    (next : (w.graphs.on s).contains owner = true → ∀ unlinked,
      unlinked = w.report.referencesUnlinked +
        (if e ∈ (w.graphs.on s).members owner role then 1 else 0) →
      Q () { w with
        graphs := w.graphs.put s ((w.graphs.on s).dropReference owner role e)
        report := { w.report with referencesUnlinked := unlinked } }) :
    wp (unlink s owner role e) Q E w := by
  rw [unlink, wp_bind, wp_onGraph, Graph.removeReference_eq]
  cases ho : (w.graphs.on s).contains owner with
  | false => exact dead ho
  | true =>
    simp only [if_true]
    rw [wp_ite]
    split
    · rename_i hm
      exact next ho _ (by rw [if_pos (of_decide_eq_true hm)])
    · rename_i hm
      exact next ho w.report.referencesUnlinked
        (by rw [if_neg fun h => hm (decide_eq_true h), Nat.add_zero])

/-- A member is given the counterpart that the record has for it, or a new element. -/
theorem wp_findOrCreate {Q : Rule × ElementId → State → Prop} {rules : RuleSet} {child : Child}
    {auth : Side} {owner member : ElementId} (hl : w.pairs.Listed)
    (hk : ∀ c ∈ w.pairs.entries, ∃ r, rules.rule? c.rule = some r)
    (dead : ∀ x, (x = owner ∧ (w.graphs.on auth.other).contains owner = false) ∨
      (x = member ∧ (w.graphs.on auth).contains member = false) →
        E (.graph (.unknownElement x)) w)
    (noRule : (w.graphs.on auth.other).contains owner = true →
      w.pairs.counterpart? rules child auth (w.graphs.on auth.other)
        ((w.graphs.on auth.other).members owner (child.roles.on auth.other)) member = none →
      ∀ kind, (w.graphs.on auth).kind? member = some kind →
      rules.ruleFor? (auth.arrange kind (child.types.on auth.other)) = none →
      E (.rule (.noRule (auth.arrange kind (child.types.on auth.other)))) w)
    (found : (w.graphs.on auth.other).contains owner = true → ∀ c r,
      w.pairs.counterpart? rules child auth (w.graphs.on auth.other)
        ((w.graphs.on auth.other).members owner (child.roles.on auth.other)) member = some c →
      rules.rule? c.rule = some r → Q (r, c.element auth.other) w)
    (made : (w.graphs.on auth.other).contains owner = true →
      w.pairs.counterpart? rules child auth (w.graphs.on auth.other)
        ((w.graphs.on auth.other).members owner (child.roles.on auth.other)) member = none →
      ∀ kind r, (w.graphs.on auth).kind? member = some kind →
      rules.ruleFor? (auth.arrange kind (child.types.on auth.other)) = some r →
        ∀ report : Report,
      report.elementsCreated = w.report.elementsCreated + 1 →
        report.conflicts = w.report.conflicts →
      Q (r, ⟨(w.graphs.on auth.other).next⟩) { w with
        graphs := w.graphs.put auth.other ((w.graphs.on auth.other).add (r.types.on auth.other)).2
        pairs := w.pairs.without r.name auth member
        report }) :
    wp (findOrCreate rules child auth owner member) Q E w := by
  simp only [findOrCreate, wp_bind, wp_graph, wp_liftGraph, wp_pairs, Graph.references_eq]
  cases ho : (w.graphs.on auth.other).contains owner with
  | false => simpa using dead owner (.inl ⟨rfl, ho⟩)
  | true =>
    simp only [if_true]
    cases hc : w.pairs.counterpart? rules child auth (w.graphs.on auth.other)
        ((w.graphs.on auth.other).members owner (child.roles.on auth.other)) member with
    | some c =>
      obtain ⟨hm, _⟩ := Correspondences.of_counterpart?_eq_some hl hc
      obtain ⟨r, hr⟩ := hk c hm.mem
      simp only [wp_bind, wp_liftRule, RuleSet.rule_eq, hr]
      exact found ho c r hc hr
    | none =>
      simp only [create, wp_bind, wp_graph, wp_liftGraph, wp_liftRule, wp_pairs, Graph.typeOf_eq,
        RuleSet.ruleFor_eq]
      cases hkd : (w.graphs.on auth).kind? member with
      | none => exact dead member (.inr ⟨rfl, Graph.not_contains_iff_kind.mpr hkd⟩)
      | some kind =>
        simp only
        cases hr : rules.ruleFor? (auth.arrange kind (child.types.on auth.other)) with
        | none => exact noRule ho hc kind hkd hr
        | some r =>
          have hm := made ho hc kind r hkd hr
          unfold Correspondences.without at hm
          cases hl : w.pairs.lookup? r.name auth member with
          | some stale =>
            rw [hl] at hm
            simp only [hl, wp_bind, wp_releasePair, wp_onGraph, wp_note, wp_pure]
            exact hm _ rfl rfl
          | none =>
            rw [hl] at hm
            simp only [hl, wp_bind, wp_onGraph, wp_note, wp_pure]
            exact hm _ rfl rfl

/-- A pair that is handed out is counted if it is new; then the rule is applied. -/
theorem wp_enter {Q : Unit → State → Prop} {d : Direction} {apply : Apply} {rule : Rule}
    {pair : Sided ElementId} {o : Correspondences.Obtained} {t : Correspondences}
    (ho : w.pairs.obtain? rule.name pair d = .ok (o, t))
    (ha : wp (apply rule o.id pair) Q E { w with
      pairs := t
      report := if o.created then { w.report with pairsCreated := w.report.pairsCreated + 1 }
        else w.report }) :
    wp (enter d apply rule pair) Q E w := by
  simp only [enter, wp_bind, wp_onPairs, ho, wp_countPair]
  exact ha

/-- The part of a pass that pairs the roots: it finds the root rule, the handle of the pair, and the
roots. -/
def pairRoots (rules : RuleSet) (d : Direction) (rootRule : RuleName) :
    Walk (Rule × CorrespondenceId × Sided ElementId) := do
  let rule ← liftRule (rules.rule rootRule)
  let graphs := (← get).graphs
  let roots := graphs.map Graph.root
  let left ← liftGraph (graphs.left.typeOf roots.left)
  let right ← liftGraph (graphs.right.typeOf roots.right)
  let types : Sided TypeName := ⟨left, right⟩
  if types ≠ rule.types then throw (.rule (.invalid rule.name (.rootTypes types rule.types)))
  let id ← countPair (← onPairs (·.anchor rule.name roots d))
  return (rule, id, roots)

/-- A pass, where `apply` stands for the application of a rule. -/
def syncRootsBy (rules : RuleSet) (d : Direction) (apply : Apply) (rootRule : RuleName) :
    Walk Unit := do
  let (rule, id, roots) ← pairRoots rules d rootRule
  releaseAllLost rules d
  apply rule id roots

/-- The roots are paired before anything else is done. -/
theorem syncRoots_eq (rules : RuleSet) (d : Direction) (rootRule : RuleName) :
    syncRoots rules d rootRule = syncRootsBy rules d (start rules d) rootRule := by
  simp only [syncRoots, syncRootsBy, pairRoots, bind_assoc]
  refine bind_congr fun rule => bind_congr fun w => bind_congr fun left =>
    bind_congr fun right => ?_
  split
  · rfl
  · simp only [bind_assoc, pure_bind]

/-- The roots are paired under the root rule, if it is known and they have its types. -/
theorem wp_pairRoots {Q : Rule × CorrespondenceId × Sided ElementId → State → Prop}
    {rules : RuleSet} {d : Direction} {rootRule : RuleName} (h : ∀ s, (w.graphs.on s).Sound)
    (unknown : rules.rule? rootRule = none → E (.rule (.unknown rootRule)) w)
    (types : ∀ r, rules.rule? rootRule = some r →
      (∃ s, (w.graphs.on s).kind? (w.graphs.on s).root ≠ some (r.types.on s)) → ∀ fault,
        E (.rule (.invalid r.name fault)) w)
    (pair : ∀ r, rules.rule? rootRule = some r →
      (∀ s, (w.graphs.on s).kind? (w.graphs.on s).root = some (r.types.on s)) →
      wp (onPairs (·.anchor rootRule (w.graphs.map Graph.root) d))
        (fun o => wp (countPair o) (fun id => Q (r, id, w.graphs.map Graph.root)) E) E w) :
    wp (pairRoots rules d rootRule) Q E w := by
  rw [pairRoots, wp_bind, wp_liftRule, RuleSet.rule_eq]
  cases hr : rules.rule? rootRule with
  | none => exact unknown hr
  | some r =>
    obtain ⟨left, hl⟩ := Graph.contains_iff_kind.mp (h .left).root_live
    obtain ⟨right, hr'⟩ := Graph.contains_iff_kind.mp (h .right).root_live
    have hl₁ : w.graphs.left.typeOf (w.graphs.map Graph.root).left = .ok left :=
      Graph.typeOf_ok hl
    have hr₁ : w.graphs.right.typeOf (w.graphs.map Graph.root).right = .ok right :=
      Graph.typeOf_ok hr'
    simp only [wp_bind, wp_get, wp_liftGraph, hl₁, hr₁, wp_ite, wp_throw]
    split
    · rename_i hne
      refine types r hr ?_ _
      by_contra hall
      simp only [ne_eq, not_exists, not_not] at hall
      have hleft := hl.symm.trans (hall .left)
      have hright := hr'.symm.trans (hall .right)
      exact hne (Sided.ext (Option.some.inj hleft) (Option.some.inj hright))
    · rename_i heq
      rw [not_not] at heq
      have hk (s : Side) : (w.graphs.on s).kind? (w.graphs.on s).root = some (r.types.on s) := by
        rw [← heq]
        cases s
        · exact hl
        · exact hr'
      have hpair := pair r hr hk
      rw [← (RuleSet.mem_of_rule? hr).2] at hpair
      refine wp_imp hpair fun o w' h' => ?_
      rw [wp_bind]
      exact h'

/-- A pass needs the root rule and roots of its types; then it pairs the roots, drops what was lost
and starts. -/
theorem wp_syncRoots {Q : Unit → State → Prop} {rules : RuleSet} {d : Direction}
    {rootRule : RuleName} (h : ∀ s, (w.graphs.on s).Sound)
    (noRule : rules.rule? rootRule = none → ∀ e, E (.rule e) w)
    (types : ∀ r, rules.rule? rootRule = some r →
      (∃ s, (w.graphs.on s).kind? (w.graphs.on s).root ≠ some (r.types.on s)) → ∀ e,
        E (.rule e) w)
    (run : ∀ r, rules.rule? rootRule = some r →
      (∀ s, (w.graphs.on s).kind? (w.graphs.on s).root = some (r.types.on s)) →
      wp (do
        let id ← countPair (← onPairs (·.anchor rootRule (w.graphs.map Graph.root) d))
        releaseAllLost rules d
        start rules d r id (w.graphs.map Graph.root)) Q E w) :
    wp (syncRoots rules d rootRule) Q E w := by
  rw [syncRoots_eq, syncRootsBy, wp_bind]
  refine wp_pairRoots h (fun hn => noRule hn _) (fun r hr hk _ => types r hr hk _) fun r hr hk => ?_
  have hrun := run r hr hk
  rw [wp_bind] at hrun
  refine wp_imp hrun fun o w' h' => ?_
  rwa [wp_bind] at h'

end Walk

end GraphSync
