import GraphSync.Proofs.Graph.Journal
import GraphSync.Proofs.Walk.Release
import GraphSync.Sample.Sessions

namespace GraphSync

/-- The graphs that clients can build. -/
inductive Graph.Built : Graph → Prop where
  | new (name : String) (kind : TypeName) : Built (.new name kind)
  | edit {g : Graph} (h : Built g) (e : Edit) : Built (g.edit e)
  | observe {g : Graph} (h : Built g) (on : Bool) : Built (g.observe on)
  | takeChanges {g : Graph} (h : Built g) : Built g.takeChanges.2

theorem Graph.Built.sound {g : Graph} (h : g.Built) : g.Sound := by
  induction h with
  | new name kind => exact Graph.sound_new name kind
  | edit _ e ih => exact (ih.edit e).sound
  | @observe g _ on ih => exact (ih.congr (g.observe on) rfl rfl).sound
  | @takeChanges g _ ih => exact (ih.congr g.takeChanges.2 rfl rfl).sound

theorem Graph.Built.editAll {g : Graph} (h : g.Built) (es : List Edit) : (g.editAll es).Built := by
  induction es generalizing g with
  | nil => exact h
  | cons e es ih => exact ih (h.edit e)

namespace Session

/-- The states that clients can bring a session to: it starts with two graphs and no
correspondences. -/
def Reachable (s : Session) : Prop :=
  ∃ (rules : RuleSet) (rootRule : RuleName) (graphs : Sided Graph) (options : Options) (history :
    List Action), (∀ side, (graphs.on side).Built) ∧
    s = performAll { rules, rootRule, graphs, options } history

theorem Reachable.performAll {s : Session} (h : s.Reachable) (history : List Action) :
    (s.performAll history).Reachable := by
  obtain ⟨rules, rootRule, graphs, options, past, hg, rfl⟩ := h
  exact ⟨rules, rootRule, graphs, options, past ++ history, hg,
    (performAll_append _ past history).symm⟩

/-- What is kept when a queued edit is carried over is kept while these edits are worked off. -/
theorem drain_keep {rules : RuleSet} {o : Options} {I : Walk.State → Prop} {items : List Pending}
    (carry : ∀ p ∈ items, o.accepts p.side = true → ∀ w, I w →
      I (Walk.exec (Walk.carry rules o.flushDirection p.side p.change) w).2)
    {f : Flush} (hf : I f.walk) : I (Flush.drain rules o items f).2.walk := by
  induction items generalizing f with
  | nil => exact hf
  | cons p rest ih =>
    have hs :
        I (Flush.step rules o { f with queue := { f.queue with items := rest } } p).2.walk := by
      unfold Flush.step
      split
      · rename_i ha
        exact carry p List.mem_cons_self ha f.walk hf
      · exact hf
    unfold Flush.drain
    split
    · rename_i f' he
      rw [he] at hs
      exact ih (fun q hq => carry q (List.mem_cons_of_mem p hq)) hs
    · rename_i e f' he
      rw [he] at hs
      exact hs

/-- Unless edits are carried both ways, only those of the source side are carried over. -/
theorem source_of_accepts {o : Options} {source side : Side} {forced : Bool}
    (hd : o.direction = .oneWay source forced) (ho : o.propagation.isTwoWay = false)
    (ha : o.accepts side = true) : side = source := by
  rw [Options.accepts, hd] at ha
  cases hp : o.propagation with
  | off => simp [hp, Propagation.accepts] at ha
  | oneWay timing => simpa [hp, Propagation.accepts, Direction.source] using ha
  | twoWay timing => simp [hp, Propagation.isTwoWay] at ho

/-- What never changes while the session follows that side. -/
def oneWay (s : Session) (source : Side) (forced : Bool) : OneWay :=
  ⟨s.rules, s.rootRule, source, forced⟩

/-- The passes of the session follow one side, and what it has recorded bears that out. -/
structure Directed (s : Session) (k : OneWay) : Prop where
  rules : s.rules = k.rules
  rootRule : s.rootRule = k.rootRule
  direction : s.options.direction = k.direction
  coherent : k.Coherent s.graphs s.pairs

/-- Nor does a flush carry anything to the side that is followed. -/
structure Follows (s : Session) (k : OneWay) : Prop extends s.Directed k where
  oneWay : s.options.propagation.isTwoWay = false

namespace Directed

variable {s : Session} {k : OneWay}

theorem withGraph (h : s.Directed k) {side : Side} {g : Graph} (hf : (s.graphs.on side).Follows g) :
    Directed { s with graphs := s.graphs.put side g } k :=
  ⟨h.rules, h.rootRule, h.direction, h.coherent.put hf⟩

theorem collectFrom (h : s.Directed k) (side : Side) : (s.collectFrom side).Directed k :=
  ⟨h.rules, h.rootRule, h.direction, h.coherent.put ((h.coherent.sound side).congr _ rfl rfl)⟩

theorem collect (h : s.Directed k) : s.collect.Directed k :=
  (h.collectFrom .left).collectFrom .right

theorem adopt (h : s.Directed k) {w : Walk.State} (hw : k.Coherent w.graphs w.pairs) :
    (s.adopt w).Directed k := by
  refine ⟨h.rules, h.rootRule, h.direction, hw.edited ?_⟩
  intro side
  simp only [Session.adopt, Sided.on_map]
  exact (hw.sound side).congr _ rfl rfl

theorem synchronize (h : s.Directed k) : s.synchronize.2.Directed k := by
  have hc := h.collect
  have hk := OneWay.keeps_syncRoots.exec (w := s.collect.walkState) hc.coherent
  apply hc.adopt
  rw [hc.rules, hc.rootRule, hc.direction]
  exact hk

/-- A session that has recorded nothing yet bears out any direction. -/
theorem of_new (hpairs : s.pairs = {}) (hbuilt : ∀ side, (s.graphs.on side).Built) {source : Side}
    {forced : Bool} (hd : s.options.direction = .oneWay source forced) :
    s.Directed (s.oneWay source forced) := by
  refine ⟨rfl, rfl, hd, ?_⟩
  rw [hpairs]
  exact .empty _ fun side => (hbuilt side).sound

end Directed

namespace Follows

variable {s : Session} {k : OneWay}

theorem flushDirection (h : s.Follows k) : s.options.flushDirection = k.direction := by
  simp [Options.flushDirection, h.oneWay, h.direction]

theorem eq_source (h : s.Follows k) {side : Side} (ha : s.options.accepts side = true) :
    side = k.source :=
  source_of_accepts h.direction h.oneWay ha

theorem withGraph (h : s.Follows k) {side : Side} {g : Graph} (hf : (s.graphs.on side).Follows g) :
    Follows { s with graphs := s.graphs.put side g } k :=
  ⟨h.toDirected.withGraph hf, h.oneWay⟩

theorem collect (h : s.Follows k) : s.collect.Follows k := ⟨h.toDirected.collect, h.oneWay⟩

theorem synchronize (h : s.Follows k) : s.synchronize.2.Follows k :=
  ⟨h.toDirected.synchronize, h.oneWay⟩

/-- Of what is worked off, only edits of the source side are carried over. -/
theorem drain_keep (h : s.Follows k) {I : Walk.State → Prop}
    (hcarry : ∀ c w, I w → I (Walk.exec (Walk.carry k.rules k.direction k.source c) w).2)
    (items : List Pending) {f : Flush} (hf : I f.walk) :
    I (Flush.drain s.rules s.options items f).2.walk := by
  refine Session.drain_keep (fun p _ ha w hw => ?_) hf
  rw [h.flushDirection, h.rules, h.eq_source ha]
  exact hcarry p.change w hw

theorem drain (h : s.Follows k) (items : List Pending) {f : Flush}
    (hf : k.Coherent f.walk.graphs f.walk.pairs) :
    let f' := (Flush.drain s.rules s.options items f).2
    k.Coherent f'.walk.graphs f'.walk.pairs :=
  h.drain_keep (I := fun w => k.Coherent w.graphs w.pairs)
    (fun c _ hw => (OneWay.keeps_carry c).exec hw) items hf

theorem releaseDeleted {w : Walk.State} (hw : k.Coherent w.graphs w.pairs) :
    k.Coherent (Walk.releaseDeleted w).graphs (Walk.releaseDeleted w).pairs := by
  obtain ⟨hgraphs, hnext, hsub, _⟩ := Walk.releaseDeleted_spec w
  rw [hgraphs]
  exact hw.sublist hsub hnext

theorem flush (h : s.Follows k) : s.flush.2.Follows k := by
  have hc := h.collect
  unfold Session.flush
  dsimp only
  split
  · exact hc
  · have hd :=
      hc.drain s.collect.queue.items
        (f := { queue := s.collect.queue, walk := s.collect.walkState })
      hc.coherent
    have ha := hc.toDirected.adopt (releaseDeleted hd)
    exact ⟨⟨ha.rules, ha.rootRule, ha.direction, ha.coherent⟩, hc.oneWay⟩

theorem edit (h : s.Follows k) (side : Side) (es : List Edit) :
    (s.edit side fun g => ((), g.editAll es)).2.2.Follows k := by
  have hc := h.collect
  have hm := hc.withGraph ((hc.coherent.sound side).editAll es)
  unfold Session.edit
  dsimp only
  split
  · exact hm.flush
  · exact hm.collect

theorem observed (h : s.Follows k) (side : Side) (on : Bool) :
    Follows { s with graphs := s.graphs.put side ((s.graphs.on side).observe on) } k :=
  h.withGraph ((h.coherent.sound side).congr _ rfl rfl)

theorem perform (h : s.Follows k) (a : Action) : (s.perform a).Follows k := by
  cases a with
  | edit side es => exact h.edit side es
  | mutate side es => exact h.withGraph ((h.coherent.sound side).editAll es)
  | observe side =>
    unfold Session.perform Session.observe
    dsimp only
    split
    · exact h.observed side true
    · exact h
  | stopObserving side => exact h.collect.observed side false
  | collect => exact h.collect
  | synchronize => exact h.synchronize
  | flush => exact h.flush

end Follows

/-- No action changes the rules or the options. -/
theorem perform_settings (s : Session) (a : Action) :
    (s.perform a).rules = s.rules ∧ (s.perform a).rootRule = s.rootRule ∧
    (s.perform a).options = s.options := by
  have flush (s : Session) : s.flush.2.rules = s.rules ∧ s.flush.2.rootRule = s.rootRule ∧
      s.flush.2.options = s.options := by
    unfold Session.flush
    dsimp only
    split <;> exact ⟨rfl, rfl, rfl⟩
  cases a with
  | edit side es =>
    unfold perform Session.edit
    dsimp only
    split
    · exact flush _
    · exact ⟨rfl, rfl, rfl⟩
  | observe side =>
    unfold perform observe
    dsimp only
    split <;> exact ⟨rfl, rfl, rfl⟩
  | flush => exact flush s
  | _ => exact ⟨rfl, rfl, rfl⟩

theorem performAll_settings (s : Session) (history : List Action) :
    (s.performAll history).rules = s.rules ∧
    (s.performAll history).rootRule = s.rootRule ∧ (s.performAll history).options = s.options :=
  performAll_induction (P := fun t => t.rules = s.rules ∧ t.rootRule = s.rootRule ∧
    t.options = s.options) ⟨rfl, rfl, rfl⟩ (fun t a ⟨hr, hn, hp⟩ =>
      have hs := t.perform_settings a
      ⟨hs.1.trans hr, hs.2.1.trans hn, hs.2.2.trans hp⟩) history

/-- A session that was given a one-way direction, and does not carry edits both ways, follows its
source. -/
theorem Reachable.follows {s : Session} (h : s.Reachable) {source : Side} {forced : Bool}
    (hd : s.options.direction = .oneWay source forced)
    (ho : s.options.propagation.isTwoWay = false) : s.Follows (s.oneWay source forced) := by
  obtain ⟨rules, rootRule, graphs, options, history, hg, rfl⟩ := h
  obtain ⟨hr, hn, hp⟩ := performAll_settings { rules, rootRule, graphs, options } history
  rw [oneWay, hr, hn]
  rw [hp] at hd ho
  refine performAll_induction (P := (·.Follows ⟨rules, rootRule, source, forced⟩)) ?_
    (fun t a ht => ht.perform a) history
  exact ⟨⟨rfl, rfl, hd, .empty _ fun side => (hg side).sound⟩, ho⟩

end Session

/-- A graph that was edited stands on the left, and a new one on the right. -/
theorem Sample.built_left (name name' : String) (kind kind' : TypeName) (es : List Edit)
    (side : Side) :
    ((⟨(Graph.new name kind).editAll es, Graph.new name' kind'⟩ : Sided Graph).on side).Built := by
  cases side
  · exact .editAll (.new _ _) _
  · exact .new _ _

theorem Sample.built_copying (d : Direction) (side : Side) : ((copying d).graphs.on side).Built :=
  built_left _ _ _ _ _ side

theorem Sample.reachable_edited (d : Direction) : (edited d).Reachable :=
  ⟨_, _, _, _, _, built_copying d, rfl⟩

theorem Sample.reachable_felled (d : Direction) : (felled d).Reachable :=
  ⟨_, _, _, _, _, built_copying d, rfl⟩

theorem Sample.reachable_halting : halting.Reachable :=
  ⟨_, _, _, _, _, built_copying (.oneWay .left true), rfl⟩

theorem Sample.reachable_carrying : carrying.Reachable :=
  ⟨_, _, _, _, _, built_copying .twoWay, rfl⟩

theorem Sample.reachable_returning : returning.Reachable :=
  ⟨_, _, _, _, _, built_left _ _ _ _ _, rfl⟩

theorem Sample.reachable_climbing : climbing.Reachable :=
  ⟨_, _, _, _, _, built_left _ _ _ _ _, rfl⟩

theorem Sample.reachable_sharing : sharing.Reachable :=
  ⟨_, _, _, _, [], built_left _ _ _ _ _, rfl⟩

theorem Sample.reachable_mirroring : mirroring.Reachable :=
  ⟨_, _, _, _, [], built_left _ _ _ _ _, rfl⟩

theorem Sample.reachable_disputed : disputed.Reachable :=
  ⟨_, _, _, _, _, built_left _ _ _ _ _, rfl⟩

end GraphSync
