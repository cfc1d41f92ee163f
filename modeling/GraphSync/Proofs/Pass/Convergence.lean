import GraphSync.Proofs.Session.Synchronize

namespace GraphSync

/-- The target element of a pair agrees with the source element as far as the rule of the pair
tells: in the attributes that it binds and in the members of its roles. -/
structure OneWay.Converged (k : OneWay) (graphs : Sided Graph) (t : Correspondences)
    (c : Correspondence) (r : Rule) : Prop where
  readings : ∀ b ∈ r.bindings,
    (b.convert k.target
      ((graphs.on k.source).reading (c.element k.source) (b.attributes.on k.source))).isOrdered →
    (b.convert k.target
      ((graphs.on k.source).reading (c.element k.source) (b.attributes.on k.source))).same
      ((graphs.on k.target).reading (c.element k.target) (b.attributes.on k.target))
  sole : ∀ child ∈ r.children,
    ∀ m ∈ (graphs.on k.source).members (c.element k.source) (child.roles.on k.source),
      ∃! y, y ∈ (graphs.on k.target).members (c.element k.target) (child.roles.on k.target) ∧
        y ∈ t.partners k.source m
  covered : ∀ child ∈ r.children,
    ∀ y ∈ (graphs.on k.target).members (c.element k.target) (child.roles.on k.target),
      t.partners k.target y ≠ [] →
      ∃ m ∈ (graphs.on k.source).members (c.element k.source) (child.roles.on k.source),
        y ∈ t.partners k.source m

namespace Pass

variable {p : Pass} {w : Walk.State} {done : List Frame} {f g : Frame} {child : Child}

theorem RoleDone.sole (h : p.RoleDone w done f child) (hforced : p.forced = true)
    (hco : p.Coherent w.graphs w.pairs) {m : ElementId} (hm : m ∈ p.followed f child) :
    ∃! y, y ∈ p.mirrored w f child ∧ y ∈ w.pairs.partners p.source m := by
  obtain ⟨ys, hmet, _⟩ := id h
  obtain ⟨y, _, c, hchosen, rfl, _⟩ := exists_of_mem_left hmet hm
  refine ⟨c.element p.target, ⟨hchosen.placed, ?_⟩, ?_⟩
  · exact Correspondences.mem_partners.mpr ⟨c, hchosen.mem, hchosen.of_member, rfl⟩
  · intro y' hy
    obtain ⟨hplaced, hy'⟩ := hy
    obtain ⟨c', hc', he, rfl⟩ := Correspondences.mem_partners.mp hy'
    obtain ⟨_, hchosen'⟩ := h.chosen hforced hco hc' hplaced
    rw [he] at hchosen'
    rw [hchosen.unique hchosen' hco.listed]
    rfl

theorem RoleDone.covered (h : p.RoleDone w done f child) (hforced : p.forced = true)
    (hco : p.Coherent w.graphs w.pairs) {y : ElementId} (hy : y ∈ p.mirrored w f child)
    (hn : w.pairs.partners p.target y ≠ []) :
    ∃ m ∈ p.followed f child, y ∈ w.pairs.partners p.source m := by
  obtain ⟨x, hx⟩ := List.exists_mem_of_ne_nil _ hn
  obtain ⟨c, hc, rfl, _⟩ := Correspondences.mem_partners.mp hx
  obtain ⟨hm, _⟩ := h.chosen hforced hco hc hy
  exact ⟨_, hm, Correspondences.mem_partners.mpr ⟨c, hc, rfl, rfl⟩⟩

/-- What is achieved for a pair whose rule was applied. -/
theorem Passed.exists_done (h : p.Passed w done g) {c : Correspondence} (hc : c ∈ w.pairs.entries)
    (hv : c.id ∈ w.visited) :
    ∃ f tail, p.rules.rule? c.rule = some f.rule ∧ c.elements = f.pair ∧
      p.Done w tail f ∧ ∀ child : Child,
        (w.graphs.on p.source).members (c.element p.source) (child.roles.on p.source) =
          p.followed f child ∧
        (w.graphs.on p.target).members (c.element p.target) (child.roles.on p.target) =
          p.mirrored w f child := by
  obtain ⟨f, hf, _, hel, hrule⟩ := h.frame_of_mem hc hv
  obtain ⟨tail, _, hdone⟩ := h.steady.finished.done_of_mem hf
  refine ⟨f, tail, hrule, hel, hdone, fun child => ⟨?_, ?_⟩⟩
  · rw [Pass.followed, ← hel, h.steady.source]
    rfl
  · rw [Pass.mirrored, ← hel]
    rfl

/-- Wherever a rule was applied in a forced pass, the members of its roles have one counterpart
each, and these are all that the roles of the target side hold. -/
theorem Passed.roles (h : p.Passed w done g) (hforced : p.forced = true) {c : Correspondence}
    (hc : c ∈ w.pairs.entries) (hv : c.id ∈ w.visited) :
    ∃ r, p.rules.rule? c.rule = some r ∧ ∀ child ∈ r.children,
      (∀ m ∈ (w.graphs.on p.source).members (c.element p.source) (child.roles.on p.source),
        ∃! y, y ∈ (w.graphs.on p.target).members (c.element p.target)
          (child.roles.on p.target) ∧ y ∈ w.pairs.partners p.source m) ∧
      ∀ y ∈ (w.graphs.on p.target).members (c.element p.target) (child.roles.on p.target),
        w.pairs.partners p.target y ≠ [] →
          ∃ m ∈ (w.graphs.on p.source).members (c.element p.source) (child.roles.on p.source),
            y ∈ w.pairs.partners p.source m := by
  obtain ⟨f, tail, hrule, _, hdone, hmembers⟩ := h.exists_done hc hv
  have hco := h.steady.coherent
  refine ⟨f.rule, hrule, fun child hchild => ?_⟩
  rw [(hmembers child).1, (hmembers child).2]
  exact ⟨fun m hm => (hdone.roles child hchild).sole hforced hco hm,
    fun y hy hn => (hdone.roles child hchild).covered hforced hco hy hn⟩

/-- Wherever a rule was applied in a forced pass, the target side agrees. -/
theorem Passed.converged (h : p.Passed w done g) (hforced : p.forced = true)
    (hattributes : p.rules.UniqueAttributes p.target) {c : Correspondence}
    (hc : c ∈ w.pairs.entries) (hv : c.id ∈ w.visited) :
    ∃ r, p.rules.rule? c.rule = some r ∧ p.Converged w.graphs w.pairs c r := by
  obtain ⟨f, tail, hrule, hel, hdone, _⟩ := h.exists_done hc hv
  obtain ⟨r, hr, hroles⟩ := h.roles hforced hc hv
  obtain rfl : f.rule = r := Option.some.inj (hrule.symm.trans hr)
  refine ⟨f.rule, hrule, ?_, fun child hchild => (hroles child hchild).1, fun child hchild =>
    (hroles child hchild).2⟩
  intro b hb ho
  obtain ⟨index, hi⟩ := Rule.exists_mem_numbered hb
  have hnodup := hattributes _ (RuleSet.mem_of_rule? hrule).1
  have hsettled := (hdone.bindings hnodup _ hi).settled
  have hagrees :=
    OneWay.agrees_of_verdict (hsettled (by simpa [Correspondence.element, ← hel] using ho))
    (.inl hforced)
  simpa [Binding.agreesFrom, Correspondence.element, ← hel] using hagrees

end Pass

namespace Session

variable {s : Session} {source : Side} {report : Report}

/-- After a forced pass that succeeds, whatever was done before, the target side agrees with the
source side on every pair whose rule was applied. -/
theorem forced_synchronize_converges (hreach : s.Reachable)
    (hd : s.options.direction = .oneWay source true) (ho : s.options.propagation.isTwoWay = false)
    (hattributes : s.rules.UniqueAttributes source.other)
    (hroles : s.rules.UniqueRoles source.other) (hok : s.synchronize.1 = .ok report) :
    ∀ c ∈ s.synchronize.2.pairs.entries, c.id ∈ s.pass.2.visited → ∃ r,
      s.rules.rule? c.rule = some r ∧
      (s.oneWay source true).Converged s.synchronize.2.graphs s.synchronize.2.pairs c r := by
  let p : Pass := s.nextPass source true False False id hroles
  obtain ⟨hpass, rfl⟩ := pass_of_synchronize hok
  obtain ⟨done, g, hp⟩ :=
    (pass_spec (p := p) (hreach.follows hd ho).toDirected rfl trivial (fun _ h => h)
      (fun h => h.elim)
    fun h => h.elim).1 hpass
  intro c hc hv
  obtain ⟨r, hr, readings, sole, covered⟩ := hp.converged rfl hattributes hc hv
  refine ⟨r, hr, ?_⟩
  constructor <;> simpa only [pairs_synchronize, members_synchronize, reading_synchronize]

/-- A renamed node gets its name back. -/
theorem forced_synchronize_converges_edited :
    ∃ c ∈ (Sample.edited (.oneWay .left true)).synchronize.2.pairs.entries,
      c.element .right = ⟨3⟩ ∧
      ∃ r, (Sample.edited (.oneWay .left true)).rules.rule? c.rule = some r ∧
        ((Sample.edited (.oneWay .left true)).oneWay .left true).Converged
          (Sample.edited (.oneWay .left true)).synchronize.2.graphs
          (Sample.edited (.oneWay .left true)).synchronize.2.pairs c r := by
  have hok : (Sample.edited (.oneWay .left true)).synchronize.1 =
      .ok { attributesUpdated := 1, referencesLinked := 2, referencesUnlinked := 1 } := by
        decide +kernel
  obtain ⟨c, hc, hv, ht⟩ :
      ∃ c ∈ (Sample.edited (.oneWay .left true)).synchronize.2.pairs.entries,
      c.id ∈ (Sample.edited (.oneWay .left true)).pass.2.visited ∧
      c.element .right = ⟨3⟩ := by decide +kernel
  exact ⟨c, hc, ht, forced_synchronize_converges (Sample.reachable_edited _) (by decide +kernel)
    (by decide +kernel) (by decide +kernel) (by decide +kernel) hok c hc hv⟩

end Session

end GraphSync
