import GraphSync.Proofs.Pass.Completeness
import GraphSync.Proofs.Pass.Conflicts
import GraphSync.Proofs.Session.Calm

namespace GraphSync

open Walk

namespace Binding

variable {b : Binding} {shadow? : Option Shadow} {values : Sided Value} {s : Side}

/-- Values are copied from a side that has changed. -/
theorem changed_of_verdict_copy (h : b.verdict .twoWay shadow? values = .copy s) :
    changed shadow? values s = true := by
  simp only [verdict] at h
  split at h
  · cases h
  · split at h
    all_goals cases h
    all_goals assumption

theorem changed_of_verdict_conflict (h : b.verdict .twoWay shadow? values = .conflict) (s : Side) :
    changed shadow? values s = true :=
  (disputed_iff.mp (verdict_eq_conflict.mp h)).2 s

end Binding

namespace Merge

variable {k : Scheme} {w₀ w : State} {done : List CorrespondenceId}
  {c : Correspondence} {r : Rule} {bi : Binding × Nat} {s : Side}

/-- A binding that was applied, and is not in conflict, leaves neither side moved. -/
theorem Settled.unmoved (h : Settled w₀ w c bi) (hno : verdict w₀ c bi ≠ .conflict)
    (s : Side) : Binding.Unmoved (c.shadow? bi.2) s ((w.values c.elements bi.1).on s) := by
  cases hv : verdict w₀ c bi with
  | conflict => exact absurd hv hno
  | copy source =>
    obtain ⟨hvalues, hshadow⟩ := Prod.ext_iff.mp (h.outcome.trans (Binding.outcome_of_copy hv))
    simp only at hvalues hshadow
    rw [hshadow, hvalues]
    exact Binding.unmoved_self _ s
  | keep inStep =>
    obtain ⟨hvalues, hshadow⟩ := Prod.ext_iff.mp (h.outcome.trans (Binding.outcome_of_keep hv))
    simp only at hvalues hshadow
    rw [hshadow, hvalues]
    split
    · exact Binding.unmoved_self _ s
    · rename_i hin
      obtain rfl := Binding.inStep_of_verdict hv
      have hleft : bi.1.agreesFrom (w₀.values c.elements bi.1) .left = false := by
        cases hl : bi.1.agreesFrom (w₀.values c.elements bi.1) .left with
        | false => rfl
        | true => exact absurd (by simp [Binding.inStep, hl]) hin
      exact Binding.unmoved_of_unchanged (Binding.unchanged_of_verdict_keep hv hleft s)

/-- After a pass without conflicts both sides of a pair are calm whose rule was applied. -/
theorem Ended.calm (h : Ended k w₀ done w) (ht : ∀ s, k.rules.UniqueTypes s)
    (hclean : w.report.conflicts = []) (hc : c ∈ w.pairs.entries) (hid : c.id ∈ done)
    (s : Side) : k.Calm c s w.store where
  old := h.consistent.listed.bounded c hc
  element_lt := h.consistent.element_lt s c hc
  inner hinner he := by
    obtain ⟨a, ha, hanchor⟩ := h.anchored
    have hroot : a.element s = (w.graphs.on s).root := by
      rw [Correspondence.element, (h.consistent.anchor a ha hanchor).2, Sided.on_map]
    have hsame : c = a := h.apart ht s c hc a ha (he.trans hroot.symm)
    rw [hsame, hanchor] at hinner
    cases hinner
  core c' hc' hi := by rw [h.eq_of_id hc' hc hi]
  unmoved c' hc' hi _ r hr bi hbi := by
    obtain rfl := h.eq_of_id hc' hc hi
    have hsettled := h.bound hc hid hr hbi
    have hunmoved := hsettled.unmoved (fun hv => by simpa [hclean] using hsettled.reported hv) s
    rwa [State.values_on] at hunmoved

/-- A side that has not moved is neither in conflict nor copied from. -/
theorem Ended.verdict_of_unmoved (h : Ended k w₀ done w) (hp : k.Plain w.store)
    (hc : c ∈ w.pairs.entries) (hid : c.id ∈ done) (hr : k.rules.rule? c.rule = some r)
    (hbi : bi ∈ r.numbered)
    (hm : Binding.Unmoved (w₀.shadow? c.id bi.2) s ((w₀.values c.elements bi.1).on s)) :
    verdict w₀ c bi ≠ .conflict ∧ verdict w₀ c bi ≠ .copy s := by
  have hsettled := h.bound hc hid hr hbi
  -- as the value is there in the end, it is an ordered one
  have hunchanged (he : (w.values c.elements bi.1).on s = (w₀.values c.elements bi.1).on s) :
      Binding.changed (w₀.shadow? c.id bi.2) (w₀.values c.elements bi.1) s = false := by
    refine hm.unchanged (Value.isOrdered_of_isPlain ?_)
    rw [← he]
    exact (hp c hc r hr bi hbi s s.mem_all).1
  refine ⟨fun hv => ?_, fun hv => ?_⟩
  · have hfalse := hunchanged (congrArg (·.on s) (hsettled.of_conflict hv).1)
    rw [Binding.changed_of_verdict_conflict hv s] at hfalse
    cases hfalse
  · have hvalues := (Prod.ext_iff.mp (hsettled.outcome.trans (Binding.outcome_of_copy hv))).1
    simp only at hvalues
    have hfalse := hunchanged (by rw [hvalues, Binding.copied, Sided.on_put_of_ne _ _ s.ne_other])
    rw [Binding.changed_of_verdict_copy hv] at hfalse
    cases hfalse

end Merge

namespace Session

variable {s : Session} {report report' : Report} {side : Side} {c : Correspondence}
  {history : List Action}

/-- What a pass finds of a pair that a side of which stayed calm. -/
theorem unmoved_pass {done : List CorrespondenceId} (h : s.Consistent)
    (hended : Merge.Ended s.scheme s.collect.walkState done s.pass.2) {c₀ : Correspondence}
    (hcalm : s.scheme.Calm c₀ side s.store) (hc : c ∈ s.pass.2.pairs.entries)
    (hi : c.id = c₀.id) {r : Rule} (hr : s.rules.rule? c.rule = some r) {bi : Binding × Nat}
    (hbi : bi ∈ r.numbered) :
    Binding.Unmoved (s.collect.walkState.shadow? c.id bi.2) side
      ((s.collect.walkState.values c.elements bi.1).on side) := by
  obtain ⟨c₁, hc₁, hcore⟩ := hended.since.old c hc (hi ▸ hcalm.old)
  have hid := Correspondence.id_eq_of_core hcore
  have hcore₁ := hcalm.core c₁ hc₁ (hid.symm.trans hi)
  have hel : c.elements.on side = c₀.element side :=
    Correspondence.element_eq_of_core (hcore.trans hcore₁) side
  have hrule : c.rule = c₀.rule := Correspondence.rule_eq_of_core (hcore.trans hcore₁)
  have hlive : (s.graphs.on side).contains (c₀.element side) = true := by
    have hafter : (s.synchronize.2.graphs.on side).contains (c₀.element side) = true := by
      rw [synchronize_eq, contains_adopt, ← hel]
      exact hended.alive c hc side
    exact hcalm.live ((preserves_synchronize h).1.follows side) hafter
  have hunmoved := hcalm.unmoved c₁ hc₁ (hid.symm.trans hi) hlive r (hrule ▸ hr) bi hbi
  have hshadow : s.collect.walkState.shadow? c.id bi.2 = c₁.shadow? bi.2 := by
    rw [hid]
    exact State.shadow?_of_mem hended.since.listed hc₁ bi.2
  rw [hshadow, (alike_collect s).values, State.values_on, hel]
  exact hunmoved

/-- After a pass without conflicts anything may be done to the session. Where nobody has set a bound
attribute of one side of a pair that the pass met, the next pass reports no conflict for the pair if
it meets it, leaves the other side as it is, and brings the values in step, unless both are
defaults. -/
theorem one_sided_edits_propagate (hreach : s.Reachable) (hd : s.options.direction = .twoWay)
    (ht : ∀ side, s.rules.UniqueTypes side) (hu : ∀ side, s.rules.UniqueAttributes side)
    (hok : s.synchronize.1 = .ok report) (hclean : report.conflicts = []) {u : Session}
    (hlater : u = s.synchronize.2.performAll history) (hok' : u.synchronize.1 = .ok report')
    (hplain : u.scheme.Plain u.synchronize.2.store) :
    ∀ c ∈ s.synchronize.2.pairs.entries, c.id ∈ s.pass.2.visited →
      c.id ∈ u.pass.2.visited → ∀ side, c.Untouched s.rules side history →
        (∀ x ∈ report'.conflicts, x.correspondence ≠ c.id) ∧
        (∀ name, (u.synchronize.2.graphs.on side.other).reading (c.element side.other) name =
          (u.graphs.on side.other).reading (c.element side.other) name) ∧
        ∀ r, s.rules.rule? c.rule = some r → ∀ b ∈ r.bindings,
          b.inStep (c.values u.synchronize.2.graphs b) = true ∨
          ∀ t, ((c.values u.synchronize.2.graphs b).on t).isDefault = true := by
  obtain ⟨hpass, rfl⟩ := pass_of_synchronize hok
  obtain ⟨hpass', rfl⟩ := pass_of_synchronize hok'
  obtain ⟨hrules, hroot, hoptions⟩ : u.rules = s.rules ∧ u.rootRule = s.rootRule ∧
      u.options = s.options :=
    hlater ▸ performAll_settings s.synchronize.2 history
  have hscheme : u.scheme = s.scheme := by rw [scheme, scheme, hrules, hroot]
  have ht' : ∀ side, u.rules.UniqueTypes side := hrules ▸ ht
  have hu' : ∀ side, u.rules.UniqueAttributes side := hrules ▸ hu
  have hk : s.synchronize.2.Consistent := (hreach.consistent.perform .synchronize).1
  have hk' : u.Consistent :=
    hlater ▸ performAll_induction hk (fun t a ht => (ht.perform a).1) history
  obtain ⟨done, h⟩ := ended_pass hreach.consistent hd ht hu hpass
  obtain ⟨done', h'⟩ := ended_pass hk' (hoptions ▸ hd) ht' hu' hpass'
  have hplain' : u.scheme.Plain u.pass.2.store := (alike_synchronize u).plain hplain
  intro c hc hid hid' side huntouched
  -- the side is calm when the second pass starts
  have hcalm₀ : s.scheme.Calm c side s.pass.2.store :=
    h.calm ht hclean hc (by simpa using (h.visited c.id).mp hid) side
  have hcalm : u.scheme.Calm c side u.store := by
    rw [hscheme, hlater]
    exact calm_performAll hk ht hu (calm_adopt h.consistent hcalm₀ s.collect) huntouched
  have hafter : u.scheme.Calm c side u.synchronize.2.store :=
    calm_synchronize hk' ht' hu' hcalm
  obtain ⟨c', hc', hi⟩ := h'.recorded c.id ((h'.visited c.id).mp hid')
  have hdone : c'.id ∈ done' := hi ▸ by simpa using (h'.visited c.id).mp hid'
  have hcore := hafter.core c' hc' hi
  have hel : c'.elements = c.elements := Correspondence.elements_eq_of_core hcore
  have hrule : c'.rule = c.rule := Correspondence.rule_eq_of_core hcore
  have hverdict {r : Rule} (hr : u.rules.rule? c'.rule = some r) {bi : Binding × Nat}
      (hbi : bi ∈ r.numbered) :
      Merge.verdict u.collect.walkState c' bi ≠ .conflict ∧
      Merge.verdict u.collect.walkState c' bi ≠ .copy side :=
    h'.verdict_of_unmoved hplain' hc' hdone hr hbi (unmoved_pass hk' h' hcalm hc' hi hr hbi)
  have hclean' : ∀ x ∈ u.pass.2.report.conflicts, x.correspondence ≠ c.id := by
    intro x hx he
    obtain ⟨a, ha, _, r, hr, bi, hbi, hv, rfl⟩ := h'.mem_conflicts.mp hx
    obtain rfl := h'.eq_of_id ha hc' (he.trans hi.symm)
    exact (hverdict hr hbi).1 hv
  refine ⟨hclean', fun name => ?_, fun r hr b hb => ?_⟩
  · rw [reading_synchronize]
    refine ((h'.since.reading side.other (c.element side.other) name).resolve_right ?_).trans ?_
    · rintro ⟨a, ha, bi, happlied, hx, _, hv⟩
      have hsame : a = c' := h'.apart ht' side.other a ha c' hc' (by
        rw [hx, Correspondence.element_eq_of_core hcore])
      obtain ⟨r, hr, hbi⟩ := happlied.numbered
      rw [Side.other_other] at hv
      rw [hsame] at hr hv
      exact (hverdict hr hbi).2 hv
    · rw [walkState, collect_graphs]
      rfl
  · obtain ⟨index, hbi⟩ := Rule.exists_mem_numbered hb
    have hr' : u.rules.rule? c'.rule = some r := by rwa [hrules, hrule]
    have hvalues : c.values u.synchronize.2.graphs b = u.pass.2.values c'.elements b := by
      rw [hel]
      exact (alike_synchronize u).values c.elements b
    rw [hvalues]
    refine (h'.inStep hplain' hc' hdone hr' hbi).imp_right (·.resolve_right fun hx => ?_)
    exact hclean' _ hx hi

end Session

/-- The mark of the first state is taken away on the left, where a state is added, and the second
state is renamed on the right. -/
def Sample.retouching : List Session.Action :=
  [.mutate .left [.set ⟨1⟩ "is_start_state" (.bool false), .add "State", .push ⟨0⟩ "states" ⟨3⟩],
    .mutate .right [.set ⟨2⟩ "name" (.text "busy")]]

def Sample.retouched : Session := mirroring.synchronize.2.performAll retouching

/-- A mark that went back to its default and a renaming on the other side both arrive. -/
theorem Session.one_sided_edits_propagate_retouched :
    (∃ report, Sample.mirroring.synchronize.1 = .ok report ∧ report.conflicts = []) ∧
    ∃ report, Sample.retouched.synchronize.1 = .ok report ∧ report.attributesUpdated = 2 ∧
      ∀ c ∈ Sample.mirroring.synchronize.2.pairs.entries, ∃ side,
        c.Untouched Sample.mirroring.rules side Sample.retouching ∧
        (∀ x ∈ report.conflicts, x.correspondence ≠ c.id) ∧
        (∀ name, (Sample.retouched.synchronize.2.graphs.on side.other).reading
          (c.element side.other) name =
          (Sample.retouched.graphs.on side.other).reading (c.element side.other) name) ∧
        ∀ r, Sample.mirroring.rules.rule? c.rule = some r → ∀ b ∈ r.bindings,
          b.inStep (c.values Sample.retouched.synchronize.2.graphs b) = true ∨
            ∀ t, ((c.values Sample.retouched.synchronize.2.graphs b).on t).isDefault = true := by
  obtain ⟨report, hok⟩ : ∃ report, Sample.mirroring.synchronize.1 = .ok report := by
    rw [synchronize_ok_iff]
    decide +kernel
  obtain ⟨report', hok'⟩ : ∃ report', Sample.retouched.synchronize.1 = .ok report' := by
    rw [synchronize_ok_iff]
    decide +kernel
  have hclean : report.conflicts = [] := by
    obtain ⟨_, rfl⟩ := pass_of_synchronize hok
    decide +kernel
  have hwritten : report'.attributesUpdated = 2 := by
    obtain ⟨_, rfl⟩ := pass_of_synchronize hok'
    decide +kernel
  have hedits : ∀ c ∈ Sample.mirroring.synchronize.2.pairs.entries,
      c.id ∈ Sample.mirroring.pass.2.visited ∧
      c.id ∈ Sample.retouched.pass.2.visited ∧ ∃ side ∈ Side.all,
        c.Untouched Sample.mirroring.rules side Sample.retouching := by
    decide +kernel
  have hpropagate := one_sided_edits_propagate Sample.reachable_mirroring (by decide +kernel)
    (fun side => by cases side <;> decide +kernel)
    (fun side => by cases side <;> decide +kernel) hok hclean
    (u := Sample.retouched) rfl hok' (by decide +kernel)
  refine ⟨⟨report, hok, hclean⟩, report', hok', hwritten, fun c hc => ?_⟩
  obtain ⟨hid, hid', side, _, huntouched⟩ := hedits c hc
  exact ⟨side, huntouched, hpropagate c hc hid hid' side huntouched⟩

end GraphSync
