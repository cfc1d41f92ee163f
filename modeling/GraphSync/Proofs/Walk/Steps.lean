import GraphSync.Proofs.Walk.Operations

namespace GraphSync

open Walk

namespace OneWay

variable {k : OneWay} {w : State} {E : Error → State → Prop}

/-- What is to be done about a binding does not depend on remembered values. -/
theorem verdict_eq (k : OneWay) (b : Binding) (shadow? : Option Shadow) (values : Sided Value) :
    b.verdict k.direction shadow? values = b.verdict k.direction none values := by
  unfold direction
  cases k.forced <;> rfl

theorem verdict_cases (k : OneWay) (b : Binding) (values : Sided Value) :
    b.verdict k.direction none values = .keep (b.inStep values) ∨
      b.verdict k.direction none values = .copy k.source := by
  unfold direction
  cases k.forced <;> simp only [Binding.verdict] <;> split <;> simp

theorem copied_source (k : OneWay) (b : Binding) (values : Sided Value) :
    (b.copied values k.source).on k.source = values.on k.source :=
  Sided.on_put_of_ne _ _ k.target_ne_source.symm

theorem copied_target (k : OneWay) (b : Binding) (values : Sided Value) :
    (b.copied values k.source).on k.target = b.convert k.target (values.on k.source) :=
  Sided.on_put_self _ _ _

theorem verdict_of_agrees {b : Binding} {values : Sided Value}
    (h : b.agreesFrom values k.source = true) :
    b.verdict k.direction none values = .keep (b.inStep values) := by
  unfold direction
  cases k.forced <;> simp [Binding.verdict, h]

/-- A value that was copied is left as it is, unless it is a NaN. -/
theorem verdict_copied {b : Binding} {values : Sided Value}
    (h : (b.convert k.target ((b.copied values k.source).on k.source)).isOrdered = true) :
    b.verdict k.direction none (b.copied values k.source) =
      .keep (b.inStep (b.copied values k.source)) := by
  rw [copied_source] at h
  apply verdict_of_agrees
  rw [Binding.agreesFrom, source_other, copied_source, copied_target]
  exact (Value.same_self_iff _).mpr h

/-- What is kept agrees, if the direction is forced or the value of the target side is a default. -/
theorem agrees_of_verdict {b : Binding} {values : Sided Value}
    (h : b.verdict k.direction none values = .keep (b.inStep values))
    (hd : k.forced = true ∨ (values.on k.target).isDefault = true) :
    b.agreesFrom values k.source = true := by
  unfold direction at h
  cases ha : b.agreesFrom values k.source with
  | true => rfl
  | false =>
    cases hf : k.forced with
    | true => simp [hf, Binding.verdict, ha] at h
    | false =>
      have hv : (values.on k.target).isDefault = true := by simpa [hf] using hd
      simp [hf, Binding.verdict, ha, hv] at h

/-- A binding is left as it is, or the value of the source side goes to the target side. -/
theorem wp_applyBinding {Q : BindingOutcome → State → Prop} {rule : RuleName}
    {id : CorrespondenceId} {pair : Sided ElementId} {b : Binding} {index : Nat}
    (dead : ∀ s e, (w.graphs.on s).contains (pair.on s) = false → E (.graph e) w)
    (keep : (∀ s, (w.graphs.on s).contains (pair.on s) = true) →
      b.verdict k.direction none (w.values pair b) = .keep (b.inStep (w.values pair b)) →
      Q .unchanged (if b.inStep (w.values pair b) then
        { w with pairs := w.pairs.recordShadow id index (w.values pair b) } else w))
    (copy : (∀ s, (w.graphs.on s).contains (pair.on s) = true) →
      b.verdict k.direction none (w.values pair b) = .copy k.source → ∀ g',
      (w.graphs.on k.target).Rewrites g' (pair.on k.target)
        (·.setValue (b.attributes.on k.target)
          ((b.copied (w.values pair b) k.source).on k.target)) →
      Q .written { w with
        graphs := w.graphs.put k.target g'
        pairs := w.pairs.recordShadow id index (b.copied (w.values pair b) k.source)
        report := { w.report with attributesUpdated := w.report.attributesUpdated + 1 } }) :
    wp (applyBinding k.direction rule id pair b index) Q E w := by
  have hverdict := k.verdict_eq b (w.shadow? id index) (w.values pair b)
  apply Walk.wp_applyBinding fun s hd => dead s _ hd
  · intro live inStep hv
    rcases k.verdict_cases b (w.values pair b) with hkeep | hcopy
    · rw [hverdict, hkeep, Verdict.keep.injEq] at hv
      exact hv ▸ keep live hkeep
    · rw [hverdict, hcopy] at hv
      cases hv
  · intro _ hv
    rcases k.verdict_cases b (w.values pair b) with hkeep | hcopy
    · rw [hverdict, hkeep] at hv
      cases hv
    · rw [hverdict, hcopy] at hv
      cases hv
  · intro live source hv
    rcases k.verdict_cases b (w.values pair b) with hkeep | hcopy
    · rw [hverdict, hkeep] at hv
      cases hv
    · rw [hverdict, hcopy, Verdict.copy.injEq] at hv
      subst source
      exact copy live hcopy

/-- A target is put into a role unless it is there. -/
theorem wp_link {Q : Unit → State → Prop} {owner : ElementId} {role : RoleName} {p : ElementId}
    {earlier later : List ElementId}
    (dead : ∀ e, (w.graphs.on k.target).contains owner = false ∨
      (w.graphs.on k.target).contains p = false → E (.graph e) w)
    (there : p ∈ (w.graphs.on k.target).members owner role → Q () w)
    (put : (w.graphs.on k.target).contains owner = true →
      (w.graphs.on k.target).contains p = true →
      p ∉ (w.graphs.on k.target).members owner role → ∀ g',
      (w.graphs.on k.target).Relists g' owner role
        (((w.graphs.on k.target).members owner role).insertIdx
        (w.pairs.slot k.source ((w.graphs.on k.target).members owner role) earlier later) p) →
      Q () { w with
        graphs := w.graphs.put k.target g'
        report := { w.report with referencesLinked := w.report.referencesLinked + 1 } }) :
    wp (link k.source owner role p earlier later) Q E w :=
  Walk.wp_link dead there put

/-- A member is given the counterpart that the record has for it, or a new element. -/
theorem wp_findOrCreate {Q : Rule × ElementId → State → Prop} {child : Child}
    {owner member : ElementId} (h : k.Coherent w.graphs w.pairs)
    (dead : ∀ e, (w.graphs.on k.target).contains owner = false ∨
      (w.graphs.on k.source).contains member = false → E (.graph e) w)
    (noRule : w.pairs.counterpart? k.rules child k.source (w.graphs.on k.target)
        ((w.graphs.on k.target).members owner (child.roles.on k.target)) member = none →
      ∀ kind, (w.graphs.on k.source).kind? member = some kind →
      k.rules.ruleFor? (k.source.arrange kind (child.types.on k.target)) = none →
      E (.rule (.noRule (k.source.arrange kind (child.types.on k.target)))) w)
    (found : (w.graphs.on k.target).contains owner = true → ∀ c r,
      w.pairs.counterpart? k.rules child k.source (w.graphs.on k.target)
        ((w.graphs.on k.target).members owner (child.roles.on k.target)) member = some c →
      k.rules.rule? c.rule = some r → Q (r, c.element k.target) w)
    (made : (w.graphs.on k.target).contains owner = true →
      w.pairs.counterpart? k.rules child k.source (w.graphs.on k.target)
        ((w.graphs.on k.target).members owner (child.roles.on k.target)) member = none →
      ∀ kind r, (w.graphs.on k.source).kind? member = some kind →
      k.rules.ruleFor? (k.source.arrange kind (child.types.on k.target)) = some r →
        ∀ report : Report,
      report.elementsCreated = w.report.elementsCreated + 1 →
      Q (r, ⟨(w.graphs.on k.target).next⟩) { w with
        graphs := w.graphs.put k.target ((w.graphs.on k.target).add (r.types.on k.target)).2
        pairs := w.pairs.without r.name k.source member
        report }) :
    wp (findOrCreate k.rules child k.source owner member) Q E w :=
  Walk.wp_findOrCreate h.listed h.known (fun _ hd => dead _ (hd.imp And.right And.right))
    (fun _ => noRule) found fun ho hc kind r hkind hr report hreport _ =>
      made ho hc kind r hkind hr report hreport

/-- A recorded pair is handed out, and a pair that contradicts nothing is recorded; then the rule is
applied. -/
theorem wp_enter_recorded {Q : Unit → State → Prop} {apply : Apply} {rule : Rule}
    {c : Correspondence} (h : k.Coherent w.graphs w.pairs) (hc : c ∈ w.pairs.entries)
    (hr : c.rule = rule.name) (ha : wp (apply rule c.id c.elements) Q E w) :
    wp (enter k.direction apply rule c.elements) Q E w :=
  Walk.wp_enter (hr ▸ h.obtain?_recorded hc k.direction) ha

theorem wp_enter_new {Q : Unit → State → Prop} {apply : Apply} {rule : Rule}
    {p : Sided ElementId}
    (hs : ∀ c ∈ w.pairs.entries, c.rule = rule.name → c.element k.source ≠ p.on k.source)
    (ht : ∀ c ∈ w.pairs.entries, c.element k.target ≠ p.on k.target)
    (ha : wp (apply rule ⟨w.pairs.next⟩ p) Q E { w with
      pairs := {
        entries := w.pairs.entries ++ [w.pairs.newEntry rule.name p k.direction]
        next := w.pairs.next + 1 }
      report := { w.report with pairsCreated := w.report.pairsCreated + 1 } }) :
    wp (enter k.direction apply rule p) Q E w :=
  Walk.wp_enter (Coherent.obtain?_new hs ht k.direction) ha

/-- Is a member of a following role left there when the members of the followed role have the given
partners? -/
def Stays (t : Correspondences) (s : Side) (partners : List ElementId) (e : ElementId) : Prop :=
  e ∈ partners ∨ t.partners s e = []

instance (t : Correspondences) (s : Side) (partners : List ElementId) (e : ElementId) :
    Decidable (Stays t s partners e) :=
  inferInstanceAs (Decidable (_ ∨ _))

private theorem wp_forM_unlinkStale {Q : Unit → State → Prop} {owner : ElementId}
    {role : RoleName} {partners : List ElementId} (l : List ElementId)
    (hs : (w.graphs.on k.target).Sound) (ho : (w.graphs.on k.target).contains owner = true)
    (hq : ∀ g' (report : Report), (w.graphs.on k.target).Relists g' owner role
        (((w.graphs.on k.target).members owner role).filter
          fun e => e ∉ l ∨ Stays w.pairs k.target partners e) →
      report.elementsCreated = w.report.elementsCreated →
      Q () { w with graphs := w.graphs.put k.target g', report }) :
    wp (l.forM fun e => do
      if e ∉ partners ∧ (← Walk.pairs).partners k.target e ≠ [] then
        let _ ← onGraph k.target (·.removeReference owner role e)
        note fun r => { r with referencesUnlinked := r.referencesUnlinked + 1 }) Q E w := by
  induction l generalizing w with
  | nil =>
    have hr := hq (w.graphs.on k.target) w.report (by simpa using .refl _ owner role) rfl
    rw [Sided.put_on] at hr
    exact hr
  | cons e l ih =>
    simp only [wp_forM_cons, wp_bind, wp_pairs, wp_ite, wp_pure]
    split
    · rename_i hstale
      have hn : ¬ Stays w.pairs k.target partners e := fun h => h.elim hstale.1 hstale.2
      have hl := hs.relists_dropReference owner role e
      rw [wp_onGraph, Graph.removeReference_eq, if_pos ho]
      apply ih
      · simpa using (hs.dropReference owner role e).sound
      · simpa [hl.contains] using ho
      · intro g' report hg hr
        simp only [Sided.on_put_self] at hg
        rw [hl.members_self, List.filter_filter] at hg
        have hf : ((w.graphs.on k.target).members owner role).filter
            (fun x => x ∉ e :: l ∨ Stays w.pairs k.target partners x) =
            ((w.graphs.on k.target).members owner role).filter
            (fun x => decide (x ∉ l ∨ Stays w.pairs k.target partners x) &&
              decide (x ≠ e)) := by
          apply List.filter_congr
          intro x _
          by_cases hx : x = e
          · subst x
            simp [hn]
          · simp [hx]
        simpa only [Sided.put_put] using hq g' report (hf ▸ hl.trans hg) hr
    · rename_i hstay
      have hy : Stays w.pairs k.target partners e := by
        by_contra hn
        exact hstay ⟨fun h => hn (.inl h), fun h => hn (.inr h)⟩
      refine ih hs ho fun g' report hg hr => hq g' report ?_ hr
      have hf : ((w.graphs.on k.target).members owner role).filter
          (fun x => x ∉ e :: l ∨ Stays w.pairs k.target partners x) =
          ((w.graphs.on k.target).members owner role).filter
          (fun x => x ∉ l ∨ Stays w.pairs k.target partners x) := by
        apply List.filter_congr
        intro x _
        by_cases hx : x = e
        · subst x
          simp [hy]
        · simp [hx]
      rwa [hf]

/-- The elements that have counterparts, but none among the given partners, leave the role. -/
theorem wp_unlinkStale {Q : Unit → State → Prop} {child : Child} {owner : ElementId}
    {partners : List ElementId} (hs : (w.graphs.on k.target).Sound)
    (dead : ∀ e, (w.graphs.on k.target).contains owner = false → E (.graph e) w)
    (hq : (w.graphs.on k.target).contains owner = true → ∀ g' (report : Report),
      (w.graphs.on k.target).Relists g' owner (child.roles.on k.target)
        (((w.graphs.on k.target).members owner (child.roles.on k.target)).filter
          (Stays w.pairs k.target partners ·)) →
      report.elementsCreated = w.report.elementsCreated →
      Q () { w with graphs := w.graphs.put k.target g', report }) :
    wp (unlinkStale child k.source owner partners) Q E w := by
  simp only [unlinkStale, wp_bind, wp_graph, wp_liftGraph, Graph.references_eq, source_other]
  cases ho : (w.graphs.on k.target).contains owner with
  | false => simpa using dead _ ho
  | true =>
    simp only [if_true]
    refine wp_forM_unlinkStale _ hs ho fun g' report hg hr => hq ho g' report ?_ hr
    have hf : ((w.graphs.on k.target).members owner (child.roles.on k.target)).filter
        (fun e => e ∉ (w.graphs.on k.target).members owner (child.roles.on k.target) ∨
          Stays w.pairs k.target partners e) =
        ((w.graphs.on k.target).members owner (child.roles.on k.target)).filter
          (Stays w.pairs k.target partners ·) :=
      List.filter_congr fun x hx => by simp [hx]
    rwa [hf] at hg

/-- A pass needs the root rule and roots of its types; then it pairs the roots, drops what was lost
and starts. -/
theorem wp_syncRoots {Q : Unit → State → Prop} (h : k.Coherent w.graphs w.pairs)
    (noRule : k.rules.rule? k.rootRule = none → ∀ e, E (.rule e) w)
    (types : ∀ r, k.rules.rule? k.rootRule = some r →
      (∃ s, (w.graphs.on s).kind? (w.graphs.on s).root ≠ some (r.types.on s)) → ∀ e,
        E (.rule e) w)
    (run : ∀ r, k.rules.rule? k.rootRule = some r →
      (∀ s, (w.graphs.on s).kind? (w.graphs.on s).root = some (r.types.on s)) →
      wp (do
        let id ← countPair
          (← onPairs (·.anchor k.rootRule (w.graphs.map Graph.root) k.direction))
        releaseAllLost k.rules k.direction
        start k.rules k.direction r id (w.graphs.map Graph.root)) Q E w) :
    wp (syncRoots k.rules k.direction k.rootRule) Q E w :=
  Walk.wp_syncRoots h.sound noRule types run

end OneWay

end GraphSync
