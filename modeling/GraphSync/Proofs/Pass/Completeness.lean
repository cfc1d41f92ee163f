import GraphSync.Proofs.Session.Merge

namespace GraphSync

open Walk

/-- No value that a binding relates on a recorded pair, or that is remembered for it, is a NaN or a
negative zero. -/
def Scheme.Plain (k : Scheme) (a : Store) : Prop :=
  ∀ c ∈ a.pairs.entries, ∀ r ∈ k.rules.rule? c.rule, ∀ bi ∈ r.numbered,
    ∀ s ∈ Side.all,
    ((c.values a.graphs bi.1).on s).isPlain = true ∧ ∀ shadow ∈ c.shadow? bi.2,
      (shadow.on s).isPlain = true

instance (k : Scheme) (a : Store) : Decidable (k.Plain a) :=
  inferInstanceAs
    (Decidable
      (∀ c ∈ a.pairs.entries, ∀ r ∈ k.rules.rule? c.rule, ∀ bi ∈ r.numbered,
        ∀ s ∈ Side.all, _))

theorem Walk.State.Alike.plain {k : Scheme} {w w' : State} (h : w.Alike w')
    (hp : k.Plain w'.store) : k.Plain w.store := by
  intro c hc r hr bi hbi s hs
  have hmem : c ∈ w'.store.pairs.entries := by
    rw [State.store, h.pairs]
    exact hc
  have hplain := hp c hmem r hr bi hbi s hs
  have hvalues : c.values w'.graphs bi.1 = c.values w.graphs bi.1 := h.values c.elements bi.1
  rwa [State.store, hvalues] at hplain

/-- A pair has what its rule asks for, with conflicts taken into account. -/
structure Correspondence.Complete (graphs : Sided Graph) (t : Correspondences)
    (conflicts : List Conflict) (c : Correspondence) (r : Rule) : Prop where
  members : ∀ child ∈ r.children, ∀ s,
    ∀ m ∈ (graphs.on s).members (c.element s) (child.roles.on s),
    ∃ y, t.partners s m = [y] ∧
      y ∈ (graphs.on s.other).members (c.element s.other) (child.roles.on s.other)
  values : ∀ b ∈ r.bindings, b.inStep (c.values graphs b) = true ∨
    (∀ s, ((c.values graphs b).on s).isDefault = true) ∨
    { correspondence := c.id, rule := c.rule, elements := c.elements, attributes := b.attributes,
      values := c.values graphs b : Conflict } ∈ conflicts

/-- Values that are kept, although the left one does not convert to the right one, have not
changed. -/
theorem Binding.unchanged_of_verdict_keep {b : Binding} {shadow? : Option Shadow}
    {values : Sided Value} {inStep : Bool} (h : b.verdict .twoWay shadow? values = .keep inStep)
    (hleft : b.agreesFrom values .left = false) (s : Side) : changed shadow? values s = false := by
  simp only [verdict, hleft] at h
  cases hl : changed shadow? values .left <;> cases hr : changed shadow? values .right <;>
    simp [hl, hr] at h
  cases s
  · exact hl
  · exact hr

/-- Values that are kept, although they are not in step, were never written: what is remembered was
in step. -/
theorem Binding.of_verdict_keep {b : Binding} {shadow? : Option Shadow} {values : Sided Value}
    (h : b.verdict .twoWay shadow? values = .keep (b.inStep values))
    (hv : ∀ s, (values.on s).isPlain = true)
    (hs : ∀ shadow ∈ shadow?, b.Agreed shadow ∧ ∀ s, (shadow.on s).isPlain = true) :
    b.inStep values = true ∨ ∀ s, (values.on s).isDefault = true := by
  by_cases hleft : b.agreesFrom values .left = true
  · exact .inl (by simp [inStep, hleft])
  have hunchanged := unchanged_of_verdict_keep h (by simpa using hleft)
  cases hshadow : shadow? with
  | none =>
    refine .inr fun s => ?_
    simpa [changed, hshadow] using hunchanged s
  | some shadow =>
    obtain ⟨hagreed, hplain⟩ := hs shadow hshadow
    have hsame (s : Side) : shadow.on s = values.on s := by
      refine Value.eq_of_same (hplain s) (hv s) ?_
      simpa [changed, hshadow] using hunchanged s
    obtain rfl : shadow = values := Sided.ext (hsame .left) (hsame .right)
    rcases hagreed with hin | ⟨s, hcopied⟩
    · exact .inl hin
    · have hfrom : b.agreesFrom shadow s = true := by
        rw [agreesFrom, ← hcopied]
        exact (Value.same_self_iff _).mpr (Value.isOrdered_of_isPlain (hv s.other))
      refine .inl ?_
      cases s <;> simp [inStep, hfrom]

/-- The values of a binding that was applied are in step, unless they were never written or are in
conflict. -/
theorem Merge.Ended.inStep {k : Scheme} {done : List CorrespondenceId} {w₀ w : State}
    {c : Correspondence} {r : Rule} {bi : Binding × Nat} (h : Merge.Ended k w₀ done w)
    (hp : k.Plain w.store) (hc : c ∈ w.pairs.entries) (hid : c.id ∈ done)
    (hr : k.rules.rule? c.rule = some r) (hbi : bi ∈ r.numbered) :
    bi.1.inStep (w.values c.elements bi.1) = true ∨
      (∀ s, ((w.values c.elements bi.1).on s).isDefault = true) ∨
      w.conflict c.rule c.id c.elements bi.1 ∈ w.report.conflicts := by
  have hplain (s : Side) := hp c hc r hr bi hbi s s.mem_all
  rcases (h.bound hc hid hr hbi).bindingDone with ⟨_, hreported⟩ | ⟨hkept, _⟩
  · exact .inr (.inr hreported)
  · have hv (s : Side) : ((w.values c.elements bi.1).on s).isPlain = true := (hplain s).1
    refine (Binding.of_verdict_keep (hkept fun s => Value.isOrdered_of_isPlain (hv s))
      hv ?_).imp_right .inl
    exact fun shadow hs =>
      ⟨h.consistent.remembered c hc r hr bi hbi shadow hs, fun s => (hplain s).2 shadow hs⟩

/-- What a pass achieves for a pair whose rule it applied. -/
theorem Merge.Merged.complete {k : Scheme} {done : List CorrespondenceId} {w₀ w : State}
    {c : Correspondence} {r : Rule} (h : Merge.Merged k w₀ done w)
    (ht : ∀ s, k.rules.UniqueTypes s) (hp : k.Plain w.store) (hc : c ∈ w.pairs.entries)
    (hid : c.id ∈ done) (hr : k.rules.rule? c.rule = some r) :
    c.Complete w.graphs w.pairs w.report.conflicts r := by
  refine ⟨fun child hchild s m hm => h.partner ht hc hid hr hchild hm, ?_⟩
  intro b hb
  obtain ⟨index, hbi⟩ := Rule.exists_mem_numbered hb
  exact h.inStep hp hc hid hr hbi

namespace Session

variable {s : Session} {report : Report}

/-- After a pass that follows both sides and ended well, every pair whose rule was applied, that of
the roots among them, has what the rule asks for. -/
theorem two_way_complete (hreach : s.Reachable) (hd : s.options.direction = .twoWay)
    (hrules : s.rules.Unambiguous) (hok : s.synchronize.1 = .ok report)
    (hplain : s.scheme.Plain s.synchronize.2.store) :
    (∃ c ∈ s.synchronize.2.pairs.entries, c.isAnchor = true ∧ c.id ∈ s.pass.2.visited) ∧
    ∀ c ∈ s.synchronize.2.pairs.entries, c.id ∈ s.pass.2.visited → ∃ r,
      s.rules.rule? c.rule = some r ∧
      c.Complete s.synchronize.2.graphs s.synchronize.2.pairs report.conflicts r := by
  obtain ⟨hpass, rfl⟩ := pass_of_synchronize hok
  obtain ⟨done, h⟩ := merged_pass hreach.consistent hd hrules hpass
  have hvisited (id : CorrespondenceId) : id ∈ s.pass.2.visited ↔ id ∈ done := by
    simpa using h.visited id
  have hvalues (c : Correspondence) (b : Binding) :
      c.values s.synchronize.2.graphs b = c.values s.pass.2.graphs b :=
    (alike_synchronize s).values c.elements b
  have hplain' : s.scheme.Plain s.pass.2.store := (alike_synchronize s).plain hplain
  refine ⟨?_, ?_⟩
  · obtain ⟨c, hc, ha, hid⟩ := h.roots
    exact ⟨c, hc, ha, (hvisited _).mpr hid⟩
  · intro c hc hid
    obtain ⟨r, hr, _⟩ := h.consistent.typed c hc
    have hcomplete := h.complete hrules.types hplain' hc ((hvisited _).mp hid) hr
    refine ⟨r, hr, ?_, ?_⟩
    · simpa only [members_synchronize, pairs_synchronize] using hcomplete.members
    · simpa only [hvalues] using hcomplete.values

/-- After edits on both sides, a renamed state is in conflict and everything else has its
counterpart. -/
theorem two_way_complete_disputed : ∃ report, Sample.disputed.synchronize.1 = .ok report ∧
    (report.conflicts.map fun x => (x.elements, x.attributes)) =
      [(⟨⟨1⟩, ⟨1⟩⟩, ⟨"name", "name"⟩)] ∧
    Sample.disputed.pass.2.visited.length = 4 ∧
    ∀ c ∈ Sample.disputed.synchronize.2.pairs.entries,
      c.id ∈ Sample.disputed.pass.2.visited →
      ∃ r, Sample.disputed.rules.rule? c.rule = some r ∧
        c.Complete Sample.disputed.synchronize.2.graphs Sample.disputed.synchronize.2.pairs
          report.conflicts r := by
  obtain ⟨report, hok⟩ : ∃ report, Sample.disputed.synchronize.1 = .ok report := by
    rw [synchronize_ok_iff]
    decide +kernel
  have hcomplete :=
    two_way_complete Sample.reachable_disputed (by decide +kernel) (by decide +kernel) hok
    (by decide +kernel)
  obtain ⟨_, rfl⟩ := pass_of_synchronize hok
  exact ⟨_, hok, by decide +kernel, by decide +kernel, hcomplete.2⟩

end Session

end GraphSync
