import GraphSync.Proofs.Flush.Order
import GraphSync.Proofs.Walk.CatchUp

namespace GraphSync

open Walk

/-- No value is a NaN or a negative zero, and the root is in no role. -/
structure Graph.Tidy (g : Graph) : Prop where
  plain : ∀ x name, (g.reading x name).isPlain = true
  inner : ∀ x role, g.root ∉ g.members x role

theorem Graph.tidy_of {g : Graph}
    (values : ∀ e ∈ g.elements, ∀ a ∈ e.attributes.entries, a.2.isPlain = true)
    (roles : g.referrers g.root = []) : g.Tidy := by
  refine ⟨fun x name => ?_, Graph.Sound.notMem_of_referrers roles⟩
  cases he : g.element? x with
  | none => simp [Graph.reading, he, Value.isPlain]
  | some e =>
    simp only [Graph.reading, he, Option.map_some, Option.getD_some, Element.value]
    cases hv : e.attributes.get? name with
    | none => rfl
    | some v => exact values e (Graph.mem_of_element? he) (name, v) (Dict.mem_of_get? hv)

theorem Graph.tidy_takeChanges {g : Graph} : g.takeChanges.2.Tidy ↔ g.Tidy :=
  ⟨fun h => ⟨h.plain, h.inner⟩, fun h => ⟨h.plain, h.inner⟩⟩

theorem Graph.Tidy.later {k : OneWay} {g : Graph} (h : g.Tidy)
    (hroles : k.rules.UniqueRoles k.target) (hattributes : k.rules.UniqueAttributes k.target) :
    (k.laterPass g hroles).Later :=
  ⟨trivial, id, fun _ => id, h.inner, hattributes⟩

/-- What queued edits of one side call for. -/
def Debts.queued (side : Side) (items : List Pending) : Debts :=
  fun _ x due => ∃ q ∈ items, q.side = side ∧ q.change.element = x ∧
    q.change.effect.Calls side due

namespace Session

variable {s : Session} {k : OneWay} {p : Pass}

/-- What the edits of one side call for that wait. -/
def debts (s : Session) (side : Side) : Debts :=
  fun _ x due => ∃ c, s.Waits side c ∧ c.element = x ∧ c.effect.Calls side due

/-- The edits of the side that is followed are recorded, and the other side lacks no more than what
they call for. -/
structure Trails (s : Session) (k : OneWay) : Prop where
  follows : s.Follows k
  accepted : s.options.accepts k.source = true
  observed : (s.graphs.on k.source).observed = true
  trails : k.Trails (s.debts k.source) s.walkState

theorem queued_collect {side : Side} {id : CorrespondenceId} {x : ElementId} {due : Due}
    (h : s.debts side id x due) : Debts.queued side s.collect.queue.items id x due := by
  obtain ⟨c, hc, hx, hcalls⟩ := h
  obtain ⟨q, hq, rfl, rfl⟩ := exists_mem_collect.mpr hc
  exact ⟨q, hq, rfl, hx, hcalls⟩

/-- Working off the queue pays for what its items call for. -/
theorem carrying_drain (h : s.Follows p.toOneWay) (ha : s.options.accepts p.source = true)
    (items : List Pending) {f : Flush}
    (hf : ∃ G D, p.Carrying (Debts.queued p.source items) G D f.walk)
    (hok : (Flush.drain s.rules s.options items f).1 = .ok ()) :
    ∃ G D, p.Carrying (fun _ _ _ => False) G D
      (Flush.drain s.rules s.options items f).2.walk := by
  induction items generalizing f with
  | nil =>
    obtain ⟨G, D, hf⟩ := hf
    exact ⟨G, D, hf.mono fun _ _ _ _ _ _ _ _ ⟨_, hq, _⟩ => by cases hq⟩
  | cons q rest ih =>
    obtain ⟨G, D, hf⟩ := hf
    let f₁ : Flush := { f with queue := { f.queue with items := rest } }
    have step (hr : (Flush.step s.rules s.options f₁ q).1 = .ok ()) :
        ∃ G D, p.Carrying (Debts.queued p.source rest) G D
          (Flush.step s.rules s.options f₁ q).2.walk := by
      by_cases hq : s.options.accepts q.side = true
      · obtain ⟨hwalk, _, hout⟩ := step_of_accepts hq f₁
        have hexec : exec (carry s.rules s.options.flushDirection q.side q.change) f₁.walk =
            exec (carry p.rules p.direction p.source q.change) f.walk := by
          rw [h.flushDirection, h.rules, h.eq_source hq]
        rw [hexec] at hwalk hout
        have hspec := hf.carry q.change fun id x due howed => by
          obtain ⟨q', hq', hs, hx, hcalls⟩ := howed
          rcases List.mem_cons.mp hq' with rfl | hq'
          · exact .inr ⟨hx.symm, hcalls⟩
          · exact .inl
              (show Debts.queued p.source rest id x due from ⟨q', hq', hs, hx, hcalls⟩)
        rw [hwalk]
        cases hx : (exec (carry p.rules p.direction p.source q.change) f.walk).1 with
        | ok outcome => exact (wp_iff.mp hspec).1 outcome hx
        | error e =>
          rw [hr, hx] at hout
          cases hout
      · -- an item of the other side calls for nothing
        rw [step_of_not_accepts hq]
        refine ⟨G, D, hf.mono fun _ _ _ _ _ _ _ _ ⟨q', hq', hs, hx, hcalls⟩ => ?_⟩
        rcases List.mem_cons.mp hq' with rfl | hq'
        · exact absurd (hs ▸ ha) hq
        · exact ⟨q', hq', hs, hx, hcalls⟩
    unfold Flush.drain at hok ⊢
    split
    · rename_i f' he
      have hstep := step (congrArg Prod.fst he)
      rw [he] at hok hstep
      exact ih hstep hok
    · rename_i e f' he
      rw [he] at hok
      cases hok

namespace Trails

theorem collect (h : s.Trails k) : s.collect.Trails k := by
  refine ⟨h.follows.collect, h.accepted, ?_,
    (h.trails.alike s.alike_collect fun side => by cases side <;> rfl).mono ?_⟩
  · rw [collect_graphs]
    exact h.observed
  · exact fun _ _ _ ⟨c, hc, hx, hcalls⟩ => ⟨c, waits_collect.mpr hc, hx, hcalls⟩

/-- What an edit leaves to be done waits. -/
theorem mutate (h : s.Trails k) {es : List Edit} (htidy : (s.graphs.on k.source).Tidy)
    (htidy' : ((s.perform (.mutate k.source es)).graphs.on k.source).Tidy) :
    (s.perform (.mutate k.source es)).Trails k := by
  have hs := h.follows.coherent.sound k.source
  obtain ⟨cs, hcs⟩ := Graph.logs_editAll hs es
  have hg : (s.perform (.mutate k.source es)).graphs.on k.source =
      (s.graphs.on k.source).editAll es := Sided.on_put_self _ _ _
  rw [hg] at htidy'
  refine ⟨h.follows.perform _, h.accepted, ?_, h.trails.edited (hcs.follows hs) (hcs.tells hs)
    (fun x name => ⟨htidy.plain x name, htidy'.plain x name⟩) fun id x due howed => ?_⟩
  · rw [hg, hcs.observed]
    exact h.observed
  · have hwaits (c : Change) :
        (s.perform (.mutate k.source es)).Waits k.source c ↔ s.Waits k.source c ∨ c ∈ cs := by
      refine (waits_put hcs).trans (or_congr_right ?_)
      simp [records_of_accepts h.accepted, h.observed]
    rcases howed with ⟨c, hc, hx, hcalls⟩ | ⟨c, hc, hx, hcalls⟩
    · exact ⟨c, (hwaits c).mpr (.inl hc), hx, hcalls⟩
    · exact ⟨c, (hwaits c).mpr (.inr hc), hx, hcalls⟩

/-- A flush that succeeds leaves nothing to do. -/
theorem flush (h : s.Trails k) (htidy : (s.graphs.on k.source).Tidy)
    (hroles : k.rules.UniqueRoles k.target) (hattributes : k.rules.UniqueAttributes k.target)
    {report : FlushReport} (hok : s.flush.1 = .ok report) :
    k.Trails (fun _ _ _ => False) s.flush.2.walkState := by
  have hcollect := h.collect.trails
  by_cases hempty : s.collect.queue.items = []
  · rw [flush_of_nil hempty]
    refine hcollect.mono fun id x due ⟨c, hc, _⟩ => ?_
    obtain ⟨q, hq, _⟩ := exists_mem_collect.mpr (waits_collect.mp hc)
    rw [hempty] at hq
    cases hq
  · let p := k.laterPass (s.collect.graphs.on k.source) hroles
    have hlater : p.Later := by
      refine Graph.Tidy.later ?_ hroles hattributes
      rw [collect_graphs]
      exact Graph.tidy_takeChanges.mpr htidy
    have hqueued : k.Trails (Debts.queued k.source s.collect.queue.items) s.collect.walkState :=
      hcollect.mono fun id x due howed => s.queued_collect (by
        obtain ⟨c, hc, hx, hcalls⟩ := howed
        exact ⟨c, waits_collect.mp hc, hx, hcalls⟩)
    obtain ⟨G, hcarrying⟩ :=
      Pass.carrying (p := p) hqueued hlater rfl rfl fun _ hx => by cases hx
    have hdrained : s.drained.1 = .ok () := by
      rw [flush_of_ne_nil hempty] at hok
      cases hd : s.drained.1 with
      | ok _ => rfl
      | error e =>
        rw [hd] at hok
        cases hok
    obtain ⟨G', D', hend⟩ := carrying_drain (p := p) h.follows h.accepted s.collect.queue.items
      (f := { queue := s.collect.queue, walk := s.collect.walkState })
      ⟨G, [], hcarrying⟩ hdrained
    have hreleased : k.Trails (fun _ _ _ => False) (releaseDeleted s.drained.2.walk) :=
      hend.released
    rw [flush_of_ne_nil hempty]
    exact hreleased.alike (s.collect.alike_adopt _) fun side => by cases side <;> rfl

/-- So does a pass. -/
theorem of_synchronize {source : Side} {forced : Bool} (hs : s.Reachable)
    (hd : s.options.direction = .oneWay source forced) (ho : s.options.propagation.isTwoWay = false)
    (haccepted : s.options.accepts source = true) (hroles : s.rules.UniqueRoles source.other)
    (hattributes : s.rules.UniqueAttributes source.other) {report : Report}
    (hok : s.synchronize.1 = .ok report) (hobserved : s.isObserving source = true)
    (htidy : (s.synchronize.2.graphs.on source).Tidy) :
    s.synchronize.2.Trails (s.oneWay source forced) := by
  let p := s.nextPass source forced False False id hroles
  have hf := hs.follows hd ho
  obtain ⟨done, g, hp⟩ :=
    (pass_spec (p := p) hf.toDirected rfl trivial (fun _ h => h) (fun h => h.elim) fun h =>
      h.elim).1
    (pass_of_synchronize hok).1
  have hsource : s.synchronize.2.graphs.on source = p.base := by
    refine (s.collect.adopt_graphs s.pass.2 source).trans ?_
    rw [show s.pass.2.graphs.on source = p.base from hp.steady.source]
    rfl
  have hlater : p.Later := ⟨trivial, id, fun _ => id, hsource ▸ htidy.inner, hattributes⟩
  have hk : p.scheme.Consistent s.synchronize.2.graphs s.synchronize.2.pairs := by
    have hconsistent : s.synchronize.2.Consistent := (hs.consistent.perform .synchronize).1
    rwa [Session.Consistent, hf.synchronize.scheme_eq] at hconsistent
  have hk' : p.scheme.Consistent s.pass.2.graphs s.pass.2.pairs :=
    hk.edited fun side => (hk.sound side).congr _ (by cases side <;> rfl) (by cases side <;> rfl)
  refine ⟨hf.synchronize, haccepted, ?_, ?_⟩
  · change (s.synchronize.2.graphs.on source).observed = true
    rw [hsource]
    exact hobserved
  · exact (hp.trails hk' hlater).alike (s.collect.alike_adopt _) fun side => by cases side <;> rfl

end Trails

end Session

end GraphSync
