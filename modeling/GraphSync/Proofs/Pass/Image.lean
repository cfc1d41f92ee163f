import GraphSync.Proofs.Pass.Cycles
import Mathlib.Data.Set.Card

namespace GraphSync

namespace OneWay

/-- The pair belongs to the element of a node, under its rule. -/
def Represents (k : OneWay) (c : Correspondence) (n : Node) : Prop :=
  c.element k.source = n.element ∧ c.rule = n.rule.name

/-- `y` is the counterpart of the member `m` under the rule that the child asks for. -/
def Mirrors (k : OneWay) (g : Graph) (t : Correspondences) (child : Child)
    (m y : ElementId) : Prop :=
  ∃ c ∈ t.entries, c.element k.source = m ∧ c.element k.target = y ∧
    ∃ r, k.resolve? g child m = some r ∧ c.rule = r.name

/-- The record pairs what is reached in `g` with its image in `g'`. -/
structure Image (k : OneWay) (g g' : Graph) (t : Correspondences) : Prop where
  sole : ∀ n, k.Reached g n → ∃! c, c ∈ t.entries ∧ k.Represents c n
  reached : ∀ c ∈ t.entries, ∃ n, k.Reached g n ∧ k.Represents c n
  targets_nodup : (t.entries.map (·.element k.target)).Nodup
  live : ∀ c ∈ t.entries, g'.contains (c.element k.target) = true
  members : ∀ c ∈ t.entries, ∀ r, k.rules.rule? c.rule = some r → ∀ child ∈ r.children,
    List.Forall₂ (k.Mirrors g t child) (g.members (c.element k.source) (child.roles.on k.source))
      (g'.members (c.element k.target) (child.roles.on k.target))
  readings : ∀ c ∈ t.entries, ∀ r, k.rules.rule? c.rule = some r → ∀ b ∈ r.bindings,
    g'.reading (c.element k.target) (b.attributes.on k.target) =
      b.convert k.target (g.reading (c.element k.source) (b.attributes.on k.source))

end OneWay

namespace Pass

variable {p : Pass} {w : Walk.State} {done : List Frame} {f g : Frame}

theorem Passed.anchor_mem (h : p.Passed w done g) (hfirst : p.first) :
    ∃ c ∈ w.pairs.entries, c.isAnchor = true :=
  h.steady.anchored ⟨h.intact, .inl ⟨hfirst, (h.acyclic hfirst).2⟩⟩

/-- What is reached by a first pass has a pair. -/
theorem Passed.recorded (h : p.Passed w done g) (hfirst : p.first) {n : Node}
    (hn : p.Reached p.base n) : ∃ c ∈ w.pairs.entries, p.Represents c n := by
  obtain ⟨r, hr, hpath⟩ := hn
  cases hpath with
  | refl =>
    obtain ⟨c, hc, ha⟩ := h.anchor_mem hfirst
    obtain ⟨hrule, hel⟩ := h.steady.coherent.anchor c hc ha
    refine ⟨c, hc, ?_, ?_⟩
    · rw [Correspondence.element, hel, Sided.on_map, h.steady.source]
    · rw [hrule, (RuleSet.mem_of_rule? hr).2]
  | @tail m _ hpath hs =>
    obtain ⟨x, hx, hnode⟩ := h.mem_of_reached hfirst ⟨r, hr, hpath⟩
    obtain ⟨tail, _, hdone⟩ := h.steady.finished.done_of_mem hx
    rw [← hnode] at hs
    obtain ⟨child, hc, hm, hres⟩ := hs
    obtain ⟨ys, hmet, _⟩ := hdone.roles child hc
    obtain ⟨y, _, c, hchosen, _, _, hr'⟩ := exists_of_mem_left hmet hm
    obtain ⟨r', hres', hname⟩ := hr' hfirst
    rw [hres] at hres'
    cases hres'
    exact ⟨c, hchosen.mem, hchosen.of_member, hname.symm⟩

/-- What has a pair was reached. -/
theorem Passed.reached (h : p.Passed w done g) (hfirst : p.first) {c : Correspondence}
    (hc : c ∈ w.pairs.entries) : ∃ n, p.Reached p.base n ∧ p.Represents c n := by
  obtain ⟨f, hf, _, hel, hrule⟩ := h.frame_of_mem hc (h.seen.of_first hfirst c hc)
  refine ⟨p.node f, (h.steady.owned f hf).reached hfirst, ?_,
    (RuleSet.mem_of_rule? hrule).2.symm⟩
  rw [Correspondence.element, hel]
  rfl

theorem Passed.image (h : p.Passed w done g) (hblank : p.blank)
    (hattributes : p.rules.UniqueAttributes p.target) :
    p.Image p.base (w.graphs.on p.target) w.pairs := by
  have hfirst := p.first_of_blank hblank
  have hco := h.steady.coherent
  refine ⟨?_, fun c hc => h.reached hfirst hc, hco.targets_nodup, fun c hc =>
    h.alive c hc p.target, ?_, ?_⟩
  · intro n hn
    obtain ⟨c, hc, he, hr⟩ := h.recorded hfirst hn
    refine ⟨c, ⟨hc, he, hr⟩, ?_⟩
    intro c' h'
    obtain ⟨hc', he', hr'⟩ := h'
    exact hco.key_inj c' hc' c hc (hr'.trans hr.symm) (he'.trans he.symm)
  · intro c hc r hr child hchild
    obtain ⟨f, hf, _, hel, hrule⟩ := h.frame_of_mem hc (h.seen.of_first hfirst c hc)
    rw [hr] at hrule
    cases hrule
    obtain ⟨tail, _, hdone⟩ := h.steady.finished.done_of_mem hf
    obtain ⟨ys, hmet, _, hexact⟩ := hdone.roles child hchild
    have hys := hexact hblank
    rw [Pass.mirrored, ← hel] at hys
    rw [Pass.followed, ← hel] at hmet
    rw [Correspondence.element, Correspondence.element, hys]
    apply hmet.imp
    intro m y hmet
    obtain ⟨c, hchosen, hy, _, hres⟩ := hmet
    obtain ⟨r, hr, hname⟩ := hres hfirst
    exact ⟨c, hchosen.mem, hchosen.of_member, hy, r, hr, hname.symm⟩
  · intro c hc r hr b hb
    obtain ⟨f, hf, _, hel, hrule⟩ := h.frame_of_mem hc (h.seen.of_first hfirst c hc)
    rw [hr] at hrule
    cases hrule
    obtain ⟨tail, _, hdone⟩ := h.steady.finished.done_of_mem hf
    obtain ⟨index, hi⟩ := Rule.exists_mem_numbered hb
    have hexact := (hdone.bindings (hattributes _ (RuleSet.mem_of_rule? hr).1) _ hi).exact hblank
    rw [Walk.State.values_on, Walk.State.values_on, h.steady.source, ← hel] at hexact
    exact hexact

/-- One element was created for each rule application that is reached, that of the root rule to the
roots apart. -/
theorem Passed.ncard_reached (h : p.Passed w done g) (hfirst : p.first) :
    {n | p.Reached p.base n}.ncard = w.report.elementsCreated + 1 := by
  have hco := h.steady.coherent
  let key (n : Node) : ElementId × RuleName := (n.element, n.rule.name)
  let keys := w.pairs.entries.map fun c => (c.element p.source, c.rule)
  have hinj : Set.InjOn key {n | p.Reached p.base n} := by
    intro n hn n' hn' he
    obtain ⟨hel, hrule⟩ := Prod.mk.inj he
    exact OneWay.Reached.ext hn hn' h.steady.base_sound hel hrule
  have himage : key '' {n | p.Reached p.base n} = ↑keys.toFinset := by
    ext x
    rw [Finset.mem_coe, List.mem_toFinset]
    constructor
    · intro hx
      obtain ⟨n, hn, rfl⟩ := hx
      obtain ⟨c, hc, he, hr⟩ := h.recorded hfirst hn
      exact List.mem_map.mpr ⟨c, hc, by rw [he, hr]⟩
    · intro hx
      obtain ⟨c, hc, rfl⟩ := List.mem_map.mp hx
      obtain ⟨n, hn, he, hr⟩ := h.reached hfirst hc
      exact ⟨n, hn, by rw [he, hr]⟩
  obtain ⟨c, hc, ha⟩ := h.anchor_mem hfirst
  calc {n | p.Reached p.base n}.ncard
      = (key '' {n | p.Reached p.base n}).ncard := hinj.ncard_image.symm
    _ = keys.length := by rw [himage, Set.ncard_coe_finset,
      List.toFinset_card_of_nodup hco.keys_nodup]
    _ = w.pairs.members.length + 1 := by rw [List.length_map, hco.length_entries hc ha]
    _ = w.report.elementsCreated + 1 := by rw [h.steady.tally hfirst]

end Pass

namespace Session

variable {s : Session} {source : Side} {forced : Bool} {report : Report}

/-- A first pass that succeeds on a target graph whose root has no attributes and no members makes
it an image of what is reached in the source graph. -/
theorem first_synchronize_image (hpairs : s.pairs = {})
    (hbuilt : ∀ side, (s.graphs.on side).Built) (hd : s.options.direction = .oneWay source forced)
    (hattributes : s.rules.UniqueAttributes source.other)
    (hroles : s.rules.UniqueRoles source.other)
    (hmembers : ∀ role, (s.graphs.on source.other).members (s.graphs.on source.other).root role =
      []) (hreadings : ∀ name,
        (s.graphs.on source.other).reading (s.graphs.on source.other).root name = .unset)
    (hok : s.synchronize.1 = .ok report) :
    (s.oneWay source forced).Image (s.graphs.on source) (s.synchronize.2.graphs.on source.other)
      s.synchronize.2.pairs ∧
    {n | (s.oneWay source forced).Reached (s.graphs.on source) n}.ncard =
      report.elementsCreated + 1 := by
  let p : Pass := s.nextPass source forced True True id hroles
  obtain ⟨hpass, rfl⟩ := pass_of_synchronize hok
  obtain ⟨done, g, hp⟩ :=
    (pass_spec (p := p) (.of_new hpairs hbuilt hd) rfl trivial (fun _ h => h)
      (fun _ => by rw [hpairs])
    fun _ => ⟨hmembers, hreadings⟩).1 hpass
  -- Journals are no part of an image.
  obtain ⟨sole, reached, targets_nodup, live, members, readings⟩ := hp.image trivial hattributes
  rw [synchronize_eq, adopt_graphs]
  exact ⟨⟨sole, reached, targets_nodup, live, members, readings⟩, hp.ncard_reached trivial⟩

/-- The net and its three nodes are each copied once. -/
theorem first_synchronize_image_diamond :
    ((Sample.copying (.oneWay .left false)).oneWay .left false).Image Sample.diamond
      (Sample.copying (.oneWay .left false)).synchronize.2.graphs.right
      (Sample.copying (.oneWay .left false)).synchronize.2.pairs ∧
    {n | ((Sample.copying (.oneWay .left false)).oneWay .left false).Reached Sample.diamond
      n}.ncard = 3 + 1 := by
  have hok : (Sample.copying (.oneWay .left false)).synchronize.1 =
      .ok
        { elementsCreated := 3
          pairsCreated := 4
          attributesUpdated := 3
          referencesLinked := 4 } := by
    decide +kernel
  exact first_synchronize_image rfl (Sample.built_copying _) rfl (by decide) (by decide)
    (fun _ => rfl) (fun _ => rfl) hok

end Session

end GraphSync
