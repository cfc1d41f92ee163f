import GraphSync.Proofs.Session.Anchor
import GraphSync.Proofs.Walk.Preserve

namespace GraphSync

theorem Queue.exists_mem_pushAll {q : Queue} {side t : Side} {cs : List Change} {c : Change} :
    (∃ p ∈ (q.pushAll side cs).items, p.side = t ∧ p.change = c) ↔
      (∃ p ∈ q.items, p.side = t ∧ p.change = c) ∨ (side = t ∧ c ∈ cs) := by
  induction cs generalizing q with
  | nil => simp [pushAll]
  | cons a cs ih =>
    have hfirst : (∃ p ∈ (q.push side a).items, p.side = t ∧ p.change = c) ↔
        (∃ p ∈ q.items, p.side = t ∧ p.change = c) ∨ (side = t ∧ a = c) := by
      simp [push, or_and_right, exists_or]
    have hall : (∃ p ∈ (q.pushAll side (a :: cs)).items, p.side = t ∧ p.change = c) ↔
        (∃ p ∈ ((q.push side a).pushAll side cs).items, p.side = t ∧ p.change = c) := Iff.rfl
    rw [hall, ih, hfirst, or_assoc, ← and_or_left, List.mem_cons, eq_comm (a := a)]

namespace Session

open Walk

variable {s : Session}

/-- An edit made on a side waits to be carried over: it is queued, or in the journal of a session
that records. -/
def Waits (s : Session) (side : Side) (c : Change) : Prop :=
  (∃ p ∈ s.queue.items, p.side = side ∧ p.change = c) ∨
    (s.options.propagation.records = true ∧ c ∈ (s.graphs.on side).journal)

/-- Collecting queues what waits. -/
theorem exists_mem_collect {side : Side} {c : Change} :
    (∃ p ∈ s.collect.queue.items, p.side = side ∧ p.change = c) ↔ s.Waits side c := by
  have hfrom (s : Session) (t : Side) :
      (∃ p ∈ (s.collectFrom t).queue.items, p.side = side ∧ p.change = c) ↔
      (∃ p ∈ s.queue.items, p.side = side ∧ p.change = c) ∨
        (s.options.propagation.records = true ∧ t = side ∧ c ∈ (s.graphs.on t).journal) := by
    unfold collectFrom
    dsimp only
    split
    · rename_i hrec
      rw [Queue.exists_mem_pushAll]
      simp [hrec, Graph.takeChanges]
    · rename_i hrec
      simp [hrec]
  have hcollect : s.collect = (s.collectFrom .left).collectFrom .right := rfl
  have hright :
      ((s.collectFrom .left).graphs.on .right).journal = (s.graphs.on .right).journal := rfl
  have hoptions : (s.collectFrom .left).options = s.options := rfl
  rw [hcollect, hfrom, hfrom, hright, hoptions, Waits, or_assoc]
  refine or_congr_right ?_
  cases side <;> simp

/-- Nothing is left in the journals. -/
theorem waits_collect {side : Side} {c : Change} : s.collect.Waits side c ↔ s.Waits side c := by
  have hjournal : (s.collect.graphs.on side).journal = [] := by
    rw [collect_graphs]
    rfl
  rw [← exists_mem_collect (s := s), Waits, hjournal]
  simp

/-- The items were worked off up to those that are left; deleted elements that were met are
noted. -/
structure Drained (k : Scheme) (o : Options) (items : List Pending) (f f' : Flush) : Prop where
  consistent : k.Consistent f'.walk.graphs f'.walk.pairs
  preserves : f.walk.store.Preserves f'.walk.store
  noted : f.walk.deleted ⊆ f'.walk.deleted
  done : ∃ done, items = done ++ f'.queue.items ∧ ∀ p ∈ done, o.accepts p.side = true →
    ∀ role index target, p.change.effect = .referenceRemoved role index target →
      (f'.walk.graphs.on p.side).contains target = false → (p.side, target) ∈ f'.walk.deleted

/-- An item of a side that is carried over. -/
theorem step_of_accepts {rules : RuleSet} {o : Options} {p : Pending} (h : o.accepts p.side = true)
    (f : Flush) :
    let r := Flush.step rules o f p
    let x := exec (carry rules o.flushDirection p.side p.change) f.walk
    r.2.walk = x.2 ∧ r.2.queue = f.queue ∧ r.1 = x.1.map fun _ => () := by
  simp only [Flush.step, if_pos h]
  exact ⟨rfl, rfl, rfl⟩

/-- One that is skipped. -/
theorem step_of_not_accepts {rules : RuleSet} {o : Options} {p : Pending}
    (h : ¬ o.accepts p.side = true) (f : Flush) :
    Flush.step rules o f p =
      (.ok (), { f with report := { f.report with skipped := f.report.skipped + 1 } }) :=
  if_neg h

/-- One item is carried over or skipped. An element is missed only where a counterpart of the edited
element is gone. -/
theorem step_spec {k : Scheme} {o : Options} {f : Flush}
    (h : k.Consistent f.walk.graphs f.walk.pairs) (p : Pending) :
    let r := Flush.step k.rules o f p
    r.2.queue = f.queue ∧ k.Consistent r.2.walk.graphs r.2.walk.pairs ∧
      f.walk.store.Preserves r.2.walk.store ∧ f.walk.deleted ⊆ r.2.walk.deleted ∧
      (o.accepts p.side = true → ∀ role index target,
        p.change.effect = .referenceRemoved role index target →
        (f.walk.graphs.on p.side).contains target = false →
          (p.side, target) ∈ r.2.walk.deleted) ∧
      ∀ g, r.1 = .error (.graph g) → o.accepts p.side = true ∧
        ∃ x, f.walk.store.Misses k.rules p.side p.change x ∧ g = .unknownElement x := by
  intro r
  by_cases ha : o.accepts p.side = true
  swap
  · rw [show r = _ from step_of_not_accepts ha f]
    exact ⟨rfl, h, .refl h.sound, fun _ hp => hp, fun ha' => absurd ha' ha,
      fun _ he => by cases he⟩
  obtain ⟨hok, herror⟩ :=
    wp_iff.mp (Scheme.carried_carry h (mem_authorities_of_accepts ha) p.change)
  let x := exec (carry k.rules o.flushDirection p.side p.change) f.walk
  have hcarried : k.Carried p.side p.change f.walk x.2 := by
    cases hx : x.1 with
    | ok outcome => exact hok outcome hx
    | error e => exact (herror e hx).1
  obtain ⟨hwalk, hqueue, houtcome⟩ := step_of_accepts ha f
  rw [hwalk, houtcome]
  refine ⟨hqueue, hcarried.consistent, hcarried.preserves, fun q hq =>
    (hcarried.deleted q).mpr (.inl hq), ?_, ?_⟩
  · intro _ role index target he hd
    exact (hcarried.deleted _).mpr (.inr ⟨role, index, target, he, rfl, hd⟩)
  · intro g he
    cases hx : x.1 with
    | ok outcome =>
      rw [hx] at he
      cases he
    | error e =>
      rw [hx] at he
      exact ⟨ha, (herror e hx).2 g (Except.error.inj he)⟩

theorem drain_spec {k : Scheme} {o : Options} (items : List Pending) {f : Flush}
    (h : k.Consistent f.walk.graphs f.walk.pairs) (hq : f.queue.items = items)
    (hd : ∀ p ∈ items, p.change.Before (f.walk.graphs.on p.side).next) :
    let r := Flush.drain k.rules o items f
    Drained k o items f r.2 ∧ (r.1 = .ok () → r.2.queue.items = []) ∧
      ∀ g, r.1 = .error (.graph g) → ∃ p ∈ items, o.accepts p.side = true ∧
        ∃ x, f.walk.store.Misses k.rules p.side p.change x ∧ g = .unknownElement x := by
  induction items generalizing f with
  | nil => exact ⟨⟨h, .refl h.sound, fun _ hp => hp, [], hq.symm, fun _ hp => by cases hp⟩,
      fun _ => hq, fun _ he => by cases he⟩
  | cons p rest ih =>
    obtain ⟨hqueue, hk, hpres, hnoted, hmet, hfault⟩ :=
      step_spec (o := o) (f := { f with queue := { f.queue with items := rest } }) h p
    unfold Flush.drain
    split
    · rename_i f' he
      rw [he] at hqueue hk hpres hnoted hmet
      have hdated : ∀ q ∈ rest, q.change.Before (f'.walk.graphs.on q.side).next := fun q hq =>
        (hd q (List.mem_cons_of_mem p hq)).mono (hpres.follows q.side).next_le
      obtain ⟨⟨hk', hpres', hnoted', done, hrest, hdone⟩, hempty, hfault'⟩ :=
        ih (f := f') hk (by rw [hqueue]) hdated
      refine ⟨⟨hk', hpres.trans hpres', fun q hq => hnoted' (hnoted hq), p :: done, ?_, ?_⟩,
        hempty, ?_⟩
      · rw [List.cons_append, ← hrest]
      · intro q hq ha role index target hrem hgone
        rcases List.mem_cons.mp hq with rfl | hq
        · exact hnoted' (hmet ha role index target hrem ((hpres.trans hpres').dead hgone))
        · exact hdone q hq ha role index target hrem hgone
      · intro g he'
        obtain ⟨q, hq, ha, x, hm, hg⟩ := hfault' g he'
        exact ⟨q, List.mem_cons_of_mem p hq, ha, x,
          hpres.misses h hm (hd q (List.mem_cons_of_mem p hq)), hg⟩
    · rename_i e f' he
      rw [he] at hqueue hk hpres hnoted hmet hfault
      refine ⟨⟨hk, hpres, hnoted, [p], ?_, ?_⟩, fun hok => (by cases hok), ?_⟩
      · rw [hqueue]
        rfl
      · intro q hq ha role index target hrem hgone
        obtain rfl := List.mem_singleton.mp hq
        exact hmet ha role index target hrem (hpres.dead hgone)
      · intro g he'
        obtain ⟨ha, x, hm, hg⟩ := hfault g he'
        exact ⟨p, List.mem_cons_self, ha, x, hm, hg⟩

/-- Journals play no part in what a walk preserves. -/
theorem preserves_congr {graphs graphs' : Sided Graph} {t : Correspondences}
    (hs : ∀ side, (graphs.on side).Sound)
    (he : ∀ side, (graphs'.on side).elements = (graphs.on side).elements)
    (hn : ∀ side, (graphs'.on side).next = (graphs.on side).next)
    (ho : ∀ side, (graphs'.on side).observed = (graphs.on side).observed) :
    Store.Preserves ⟨graphs, t⟩ ⟨graphs', t⟩ := by
  refine ⟨fun side => (hs side).congr _ (he side) (hn side), ho, fun side x hx => ?_, fun c hc =>
    .inl ⟨c, hc, rfl⟩⟩
  simp only [Graph.contains, Graph.element?, he] at hx ⊢
  exact hx

theorem preserves_collect (h : s.Consistent) : s.store.Preserves s.collect.store := by
  refine preserves_congr h.sound ?_ ?_ ?_ <;> exact fun side => by cases side <;> rfl

theorem preserves_adopt {w : State} (hs : ∀ side, (w.graphs.on side).Sound) (s : Session) :
    w.store.Preserves (s.adopt w).store := by
  refine preserves_congr hs ?_ ?_ ?_ <;> exact fun side => by cases side <;> rfl

@[simp] theorem contains_adopt (s : Session) (w : State) (side : Side) (x : ElementId) :
    ((s.adopt w).graphs.on side).contains x = (w.graphs.on side).contains x := by cases side <;> rfl

/-- A pass that succeeds leaves no pair that has lost an element. -/
theorem preserves_synchronize (h : s.Consistent) : s.store.Preserves s.synchronize.2.store ∧
    ((∃ report, s.synchronize.1 = .ok report) → s.synchronize.2.store.Alive) := by
  have hcollect := preserves_collect h
  have hc : s.collect.Consistent := (leaves_collect h s.options.direction).consistent
  obtain ⟨hok, herror⟩ :=
    wp_iff.mp (Scheme.preserves_syncRoots (d := s.options.direction) (w := s.collect.walkState) hc)
  have hpass : s.collect.store.Preserves s.pass.2.store := by
    cases hp : s.pass.1 with
    | ok _ => exact (hok () hp).1
    | error e => exact herror e hp
  refine ⟨hcollect.trans
    (hpass.trans (preserves_adopt (fun side => (hpass.follows side).sound) s.collect)), ?_⟩
  intro hreport c hcmem side
  have halive : s.pass.2.store.Alive := (hok () ((synchronize_ok_iff s).mp hreport)).2
  exact (contains_adopt s.collect s.pass.2 side _).trans (halive c hcmem side)

/-- The edits that wait were worked off up to those that are left, and the deleted elements that
they took out of a role have no pairs any more. -/
structure Flushed (s t : Session) : Prop where
  preserves : s.store.Preserves t.store
  journal : ∀ side, (t.graphs.on side).journal = []
  done : ∃ done, s.collect.queue.items = done ++ t.queue.items ∧
    ∀ p ∈ done, s.options.accepts p.side = true →
    ∀ role index target, p.change.effect = .referenceRemoved role index target →
      (t.graphs.on p.side).contains target = false → ∀ c ∈ t.pairs.entries,
        c.element p.side ≠ target

/-- Nothing new waits after a flush. -/
theorem Flushed.waits {t : Session} (h : s.Flushed t) {side : Side} {c : Change}
    (hc : t.Waits side c) : s.Waits side c := by
  obtain ⟨done, hitems, _⟩ := h.done
  rcases hc with ⟨p, hp, hside, hchange⟩ | ⟨_, hj⟩
  · exact exists_mem_collect.mp ⟨p, hitems ▸ List.mem_append_right _ hp, hside, hchange⟩
  · rw [h.journal] at hj
    cases hj

/-- Where working off the queue ends. -/
def drained (s : Session) : Except Error Unit × Flush :=
  Flush.drain s.rules s.options s.collect.queue.items
    { queue := s.collect.queue, walk := s.collect.walkState }

theorem flush_of_nil (h : s.collect.queue.items = []) : s.flush = (.ok {}, s.collect) := by
  unfold flush
  exact if_pos h

theorem flush_of_ne_nil (h : s.collect.queue.items ≠ []) :
    s.flush = (s.drained.1.map fun _ =>
        { s.drained.2.report with conflicts := (releaseDeleted s.drained.2.walk).report.conflicts },
      { s.collect.adopt (releaseDeleted s.drained.2.walk) with queue := s.drained.2.queue }) := by
  unfold flush
  exact if_neg h

theorem flush_spec (h : s.Consistent)
    (hd : ∀ p ∈ s.collect.queue.items, p.change.Before (s.graphs.on p.side).next) :
    s.Flushed s.flush.2 ∧ (∀ report, s.flush.1 = .ok report → s.flush.2.queue.items = []) ∧
      ∀ g, s.flush.1 = .error (.graph g) → ∃ p ∈ s.collect.queue.items,
        s.options.accepts p.side = true ∧
        ∃ x, s.store.Misses s.rules p.side p.change x ∧ g = .unknownElement x := by
  have hcollect := preserves_collect h
  have hc : s.collect.Consistent := (leaves_collect h s.options.direction).consistent
  by_cases hempty : s.collect.queue.items = []
  · rw [flush_of_nil hempty]
    refine ⟨⟨hcollect, ?_, [], by rfl, fun _ hp => by cases hp⟩, fun _ _ => hempty,
      fun _ he => by cases he⟩
    intro side
    rw [collect_graphs]
    rfl
  have hdated : ∀ p ∈ s.collect.queue.items,
      p.change.Before (s.collect.graphs.on p.side).next :=
    fun p hp =>
      (hd p hp).mono (hcollect.follows p.side).next_le
  have hdrain : Drained s.scheme s.options s.collect.queue.items _ s.drained.2 ∧
      (s.drained.1 = .ok () →
      s.drained.2.queue.items = []) ∧ ∀ g, s.drained.1 = .error (.graph g) →
        ∃ p ∈ s.collect.queue.items,
      s.options.accepts p.side = true ∧
        ∃ x, s.collect.store.Misses s.rules p.side p.change x ∧ g = .unknownElement x :=
    drain_spec s.collect.queue.items hc rfl hdated
  obtain ⟨hdrained, hqueue, hfault⟩ := hdrain
  obtain ⟨hg, _, hsub, hleft⟩ := releaseDeleted_spec s.drained.2.walk
  have hreleased :=
    Scheme.preserves_releaseDeleted (w := s.drained.2.walk) hdrained.consistent.sound
  have hadopt := preserves_adopt (w := releaseDeleted s.drained.2.walk)
    (fun side => (hreleased.follows side).sound) s.collect
  obtain ⟨done, hitems, hdone⟩ := hdrained.done
  rw [flush_of_ne_nil hempty]
  refine ⟨⟨hcollect.trans (hdrained.preserves.trans (hreleased.trans hadopt)),
    journal_adopt s.collect _, done, hitems, ?_⟩, ?_, ?_⟩
  · intro p hp ha role index target he hgone c hcmem
    rw [contains_adopt, hg] at hgone
    exact (hleft c (hsub.subset hcmem)).mp hcmem _ (hdone p hp ha role index target he hgone)
  · intro report hok
    cases hr : s.drained.1 with
    | ok _ => exact hqueue hr
    | error e =>
      rw [hr] at hok
      cases hok
  · intro g he
    cases hr : s.drained.1 with
    | ok _ =>
      rw [hr] at he
      cases he
    | error e =>
      rw [hr] at he
      obtain ⟨p, hp, ha, x, hm, hx⟩ :=
        hfault g (hr.trans (congrArg Except.error (Except.error.inj he)))
      exact ⟨p, hp, ha, x, hcollect.misses h hm (hd p hp), hx⟩

end Session

end GraphSync
