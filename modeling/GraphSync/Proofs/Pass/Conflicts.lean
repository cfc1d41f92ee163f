import GraphSync.Proofs.Session.Merge

namespace GraphSync

open Walk

/-- The left value does not convert to the right one, and both differ from what is remembered; where
nothing is remembered, neither is a default. -/
def Binding.Disputed (b : Binding) (shadow? : Option Shadow) (values : Sided Value) : Prop :=
  b.agreesFrom values .left = false ∧ ∀ s, match shadow? with
    | some shadow => (shadow.on s).same (values.on s) = false
    | none => (values.on s).isDefault = false

theorem Binding.disputed_iff {b : Binding} {shadow? : Option Shadow} {values : Sided Value} :
    b.Disputed shadow? values ↔ b.agreesFrom values .left = false ∧
      ∀ s, changed shadow? values s = true := by
  cases shadow? <;> simp [Disputed, changed]

theorem Binding.verdict_eq_conflict {b : Binding} {shadow? : Option Shadow} {values : Sided Value} :
    b.verdict .twoWay shadow? values = .conflict ↔ b.Disputed shadow? values := by
  rw [disputed_iff, Side.forall_iff]
  unfold verdict
  cases b.agreesFrom values .left <;> cases changed shadow? values .left <;>
    cases changed shadow? values .right <;> simp

namespace Merge

variable {k : Scheme} {w₀ w : State} {done : List CorrespondenceId}
  {c : Correspondence} {r : Rule} {bi : Binding × Nat}

/-- A binding in conflict is left alone, whether its rule was applied or not. -/
theorem Ended.of_conflict (h : Ended k w₀ done w) (ht : ∀ s, k.rules.UniqueTypes s)
    (hu : ∀ s, k.rules.UniqueAttributes s) (hc : c ∈ w.pairs.entries)
    (hr : k.rules.rule? c.rule = some r) (hbi : bi ∈ r.numbered)
    (hv : verdict w₀ c bi = .conflict) :
    w.values c.elements bi.1 = w₀.values c.elements bi.1 ∧
    c.shadow? bi.2 = w₀.shadow? c.id bi.2 := by
  by_cases hid : c.id ∈ done
  · exact (h.bound hc hid hr hbi).of_conflict hv
  · exact h.since.untouched (h.apart ht) hu hc hr hbi fun hb => hid (by simpa using hb.listed)

theorem Ended.mem_conflicts (h : Ended k w₀ done w) {x : Conflict} : x ∈ w.report.conflicts ↔
    ∃ c ∈ w.pairs.entries, c.id ∈ done ∧ ∃ r, k.rules.rule? c.rule = some r ∧
      ∃ bi ∈ r.numbered,
      verdict w₀ c bi = .conflict ∧ x = w.conflict c.rule c.id c.elements bi.1 := by
  have hsame {c : Correspondence} {bi : Binding × Nat} (hs : Settled w₀ w c bi)
      (hv : verdict w₀ c bi = .conflict) :
      w₀.conflict c.rule c.id c.elements bi.1 = w.conflict c.rule c.id c.elements bi.1 := by
    rw [State.conflict, State.conflict, (hs.of_conflict hv).1]
  constructor
  · intro hx
    obtain ⟨c, hc, bi, hb, hv, rfl⟩ := h.since.reported x hx
    obtain ⟨r, hr, hbi⟩ := hb.numbered
    exact ⟨c, hc, by simpa using hb.listed, r, hr, bi, hbi, hv,
      hsame (h.since.settled c hc bi hb) hv⟩
  · rintro ⟨c, hc, hid, r, hr, bi, hbi, hv, rfl⟩
    have hs := h.bound hc hid hr hbi
    exact hsame hs hv ▸ hs.reported hv

/-- A conflict is known by its pair and its attributes. -/
theorem Ended.conflicts_distinct (h : Ended k w₀ done w)
    (hu : ∀ s, k.rules.UniqueAttributes s) :
    (w.report.conflicts.map fun x => (x.correspondence, x.attributes)).Nodup := by
  refine List.Nodup.map_on (fun x hx y hy he => ?_) h.conflicts_nodup
  obtain ⟨c, hc, _, r, hr, bi, hbi, _, rfl⟩ := h.mem_conflicts.mp hx
  obtain ⟨c', hc', _, r', hr', bi', hbi', _, rfl⟩ := h.mem_conflicts.mp hy
  obtain ⟨hid, hattributes⟩ := Prod.ext_iff.mp he
  obtain rfl := h.eq_of_id hc hc' hid
  obtain rfl : r = r' := Option.some.inj (hr.symm.trans hr')
  rw [Rule.eq_of_attribute (hu .left r (RuleSet.mem_of_rule? hr).1) hbi hbi'
    (congrArg (·.on .left) hattributes)]

end Merge

namespace Session

variable {s : Session} {report : Report}

/-- A binding of a pair is in dispute, by what the session remembers of it. -/
def Disputed (s : Session) (c : Correspondence) (bi : Binding × Nat) : Prop :=
  bi.1.Disputed (s.walkState.shadow? c.id bi.2) (c.values s.graphs bi.1)

theorem disputed_iff_verdict {c : Correspondence} {bi : Binding × Nat} :
    s.Disputed c bi ↔ Merge.verdict s.collect.walkState c bi = .conflict := by
  have hvalues : s.collect.walkState.values c.elements bi.1 = c.values s.graphs bi.1 :=
    (alike_collect s).values _ _
  rw [Merge.verdict, hvalues]
  exact Binding.verdict_eq_conflict.symm

/-- The conflicts of a pass that ended well are the disputes of the pairs whose rules were applied,
each once, with the values that are there in the end. Neither these values nor what is remembered of
them was changed. -/
theorem two_way_conflicts (hreach : s.Reachable) (hd : s.options.direction = .twoWay)
    (ht : ∀ side, s.rules.UniqueTypes side) (hu : ∀ side, s.rules.UniqueAttributes side)
    (hok : s.synchronize.1 = .ok report) :
    (report.conflicts.map fun x => (x.correspondence, x.attributes)).Nodup ∧
    (∀ x, x ∈ report.conflicts ↔ ∃ c ∈ s.synchronize.2.pairs.entries,
      c.id ∈ s.pass.2.visited ∧
      ∃ r, s.rules.rule? c.rule = some r ∧ ∃ bi ∈ r.numbered, s.Disputed c bi ∧
        x = { correspondence := c.id, rule := c.rule, elements := c.elements, attributes :=
          bi.1.attributes,
              values := c.values s.synchronize.2.graphs bi.1 }) ∧
    ∀ c ∈ s.synchronize.2.pairs.entries, ∀ r, s.rules.rule? c.rule = some r →
      ∀ bi ∈ r.numbered,
      s.Disputed c bi → c.values s.synchronize.2.graphs bi.1 = c.values s.graphs bi.1 ∧
        c.shadow? bi.2 = s.walkState.shadow? c.id bi.2 := by
  obtain ⟨hpass, rfl⟩ := pass_of_synchronize hok
  obtain ⟨done, h⟩ := ended_pass hreach.consistent hd ht hu hpass
  have hvisited (id : CorrespondenceId) : id ∈ s.pass.2.visited ↔ id ∈ done := by
    simpa using h.visited id
  have hafter (c : Correspondence) (b : Binding) :
      c.values s.synchronize.2.graphs b = s.pass.2.values c.elements b :=
    (alike_synchronize s).values c.elements b
  have hbefore (c : Correspondence) (b : Binding) :
      s.collect.walkState.values c.elements b = c.values s.graphs b :=
    (alike_collect s).values c.elements b
  refine ⟨h.conflicts_distinct hu, fun x => ?_, ?_⟩
  · simp only [hvisited, disputed_iff_verdict, hafter]
    exact h.mem_conflicts
  · intro c hc r hr bi hbi hdisputed
    obtain ⟨hvalues, hshadow⟩ :=
      h.of_conflict ht hu hc hr hbi (disputed_iff_verdict.mp hdisputed)
    exact ⟨by rw [hafter, hvalues, hbefore], hshadow⟩

end Session

/-- Besides the name, the marking of the state was edited on both sides. It had a default on either
side before, so nothing is remembered of it. -/
def Sample.contested : Session := disputed.performAll
  [.mutate .left [.set ⟨1⟩ "is_start_state" (.bool true)],
    .mutate .right [.set ⟨1⟩ "tokens" (.int 5)]]

theorem Sample.reachable_contested : contested.Reachable := reachable_disputed.performAll _

/-- Two bindings of one pair are in dispute, one of them without a memory of values in step. -/
theorem Session.two_way_conflicts_contested : ∃ report,
    Sample.contested.synchronize.1 = .ok report ∧
    (report.conflicts.map fun x => (x.attributes, x.values)) =
      [(⟨"name", "name"⟩, ⟨.text "idle", .text "busy"⟩),
        (⟨"is_start_state", "tokens"⟩, ⟨.bool true, .int 5⟩)] ∧
    (report.conflicts.map fun x => (x.correspondence, x.attributes)).Nodup ∧
    ∀ x ∈ report.conflicts, ∃ c ∈ Sample.contested.synchronize.2.pairs.entries,
      c.id ∈ Sample.contested.pass.2.visited ∧
      ∃ r, Sample.contested.rules.rule? c.rule = some r ∧ ∃ bi ∈ r.numbered,
        Sample.contested.Disputed c bi ∧
        x = { correspondence := c.id, rule := c.rule, elements := c.elements, attributes :=
          bi.1.attributes,
              values := c.values Sample.contested.synchronize.2.graphs bi.1 } := by
  obtain ⟨report, hok⟩ : ∃ report, Sample.contested.synchronize.1 = .ok report := by
    rw [synchronize_ok_iff]
    decide +kernel
  obtain ⟨hdistinct, hmem, _⟩ :=
    two_way_conflicts Sample.reachable_contested (by decide +kernel)
    (fun side => by cases side <;> decide +kernel)
    (fun side => by cases side <;> decide +kernel) hok
  obtain ⟨_, rfl⟩ := pass_of_synchronize hok
  exact ⟨_, hok, by decide +kernel, hdistinct, fun x hx => (hmem x).mp hx⟩

end GraphSync
