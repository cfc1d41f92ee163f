import GraphSync.Proofs.Session.Waiting

namespace GraphSync.Session

variable {s : Session} {side : Side}

/-- The removal of an element from a role waits to be carried over. -/
def Leaving (s : Session) (side : Side) (x : ElementId) : Prop :=
  ∃ owner role index, s.Waits side ⟨owner, .referenceRemoved role index x⟩

/-- A paired element that one of the edits deletes is in some role at that moment, or its removal
from one waits. -/
def Announced (s : Session) (side : Side) : List Edit → Prop
  | [] => True
  | e :: es =>
    (∀ x, (s.graphs.on side).contains x = true →
        ((s.graphs.on side).edit e).contains x = false →
        (∃ c ∈ s.pairs.entries, c.element side = x) →
        (∃ y role, x ∈ (s.graphs.on side).members y role) ∨ s.Leaving side x) ∧
      (s.perform (.mutate side [e])).Announced side es

/-- Edits other than removals need no announcement. -/
theorem announced_cons (h : s.Consistent) {e : Edit} {es : List Edit} (he : ∀ x, e ≠ .remove x)
    (hes : (s.perform (.mutate side [e])).Announced side es) : s.Announced side (e :: es) :=
  ⟨fun x hx hd => absurd ((h.sound side).eq_remove hx hd) (he x), hes⟩

theorem announced_of_keeps (h : s.Consistent) {es : List Edit}
    (hes : ∀ e ∈ es, ∀ x, e ≠ .remove x) : s.Announced side es := by
  induction es generalizing s with
  | nil => exact trivial
  | cons e es ih =>
    obtain ⟨he, hes⟩ := List.forall_mem_cons.mp hes
    exact announced_cons h he (ih (h.perform _).1 hes)

theorem announced_remove {x : ElementId} {es : List Edit}
    (hx : (∃ y role, x ∈ (s.graphs.on side).members y role) ∨ s.Leaving side x)
    (h : s.Consistent) (hes : (s.perform (.mutate side [.remove x])).Announced side es) :
    s.Announced side (.remove x :: es) := by
  refine ⟨fun y hy hd _ => ?_, hes⟩
  cases (h.sound side).eq_remove hy hd
  exact hx

/-- Side `side` stays observed, and no paired element of it is deleted unannounced. -/
def Attentive (s : Session) (side : Side) : List Action → Prop
  | [] => True
  | a :: history =>
    (match a with
      | .edit t es => t = side → s.collect.Announced side es
      | .mutate t es => t = side → s.Announced side es
      | .stopObserving t => t ≠ side
      | _ => True) ∧ (s.perform a).Attentive side history

/-- The side is observed, and for a pair that lost its element there the removal of the element from
a role waits. -/
structure Attended (s : Session) (side : Side) : Prop where
  timely : s.Timely
  accepted : s.options.accepts side = true
  observed : (s.graphs.on side).observed = true
  leaving : ∀ c ∈ s.pairs.entries, (s.graphs.on side).contains (c.element side) = false →
    s.Leaving side (c.element side)

namespace Attended

/-- Walks neither delete elements nor pair deleted ones. -/
theorem preserves {t : Session} (h : s.Attended side) (ht : t.Timely) (ho : t.options = s.options)
    (hp : s.store.Preserves t.store)
    (hw : ∀ c ∈ t.pairs.entries, (t.graphs.on side).contains (c.element side) = false →
      s.Leaving side (c.element side) → t.Leaving side (c.element side)) : t.Attended side := by
  refine ⟨ht, ho ▸ h.accepted, (hp.observed side).trans h.observed, fun c hc hd =>
    hw c hc hd ?_⟩
  obtain ⟨c₀, hc₀, hcore, hd₀⟩ := hp.lost hc hd
  rw [Correspondence.element_eq_of_core hcore side] at hd₀ ⊢
  exact h.leaving c₀ hc₀ hd₀

theorem collect (h : s.Attended side) : s.collect.Attended side :=
  h.preserves (h.timely.perform .collect) rfl (preserves_collect h.timely.consistent)
    fun _ _ _ ⟨owner, role, index, hw⟩ => ⟨owner, role, index, waits_collect.mpr hw⟩

theorem synchronize (h : s.Attended side) : s.synchronize.2.Attended side :=
  h.preserves (h.timely.perform .synchronize) rfl (preserves_synchronize h.timely.consistent).1
    fun _ _ _ ⟨owner, role, index, hw⟩ => ⟨owner, role, index, waits_synchronize.mpr hw⟩

/-- A flush drops the pairs of a deleted element whose removal it works off. -/
theorem flush (h : s.Attended side) : s.flush.2.Attended side := by
  obtain ⟨hflushed, _⟩ := flush_spec h.timely.consistent h.timely.dated
  obtain ⟨done, hitems, hdone⟩ := hflushed.done
  refine h.preserves (h.timely.perform .flush) (s.perform_settings .flush).2.2 hflushed.preserves ?_
  rintro c hc hd ⟨owner, role, index, hw⟩
  obtain ⟨p, hp, rfl, hchange⟩ := exists_mem_collect.mpr hw
  rw [hitems] at hp
  rcases List.mem_append.mp hp with hp | hp
  · exact absurd rfl
      (hdone p hp h.accepted role index (c.element p.side) (by rw [hchange]) hd c hc)
  · exact ⟨owner, role, index, .inl ⟨p, hp, rfl, hchange⟩⟩

theorem mutate_other (h : s.Attended side) {t : Side} (ht : t ≠ side) (es : List Edit) :
    (s.perform (.mutate t es)).Attended side := by
  obtain ⟨cs, hcs⟩ := Graph.logs_editAll (h.timely.consistent.sound t) es
  have hg : (s.perform (.mutate t es)).graphs.on side = s.graphs.on side :=
    Sided.on_put_of_ne _ _ fun e => ht e.symm
  refine ⟨h.timely.perform _, h.accepted, ?_, fun c hc hd => ?_⟩
  · rw [hg]
    exact h.observed
  · rw [hg] at hd
    obtain ⟨owner, role, index, hw⟩ := h.leaving c hc hd
    exact ⟨owner, role, index, (waits_put hcs).mpr (.inl hw)⟩

/-- A deletion that is announced leaves the removal from a role behind. -/
theorem mutate_single (h : s.Attended side) {e : Edit} (ha : s.Announced side [e]) :
    (s.perform (.mutate side [e])).Attended side := by
  have hs := h.timely.consistent.sound side
  obtain ⟨cs, hcs, hdeleted⟩ := Graph.logs_edit hs e
  have hg : (s.perform (.mutate side [e])).graphs.on side = (s.graphs.on side).edit e :=
    Sided.on_put_self _ _ _
  have hwaits {c : Change} :
      (s.perform (.mutate side [e])).Waits side c ↔ s.Waits side c ∨ c ∈ cs := by
    refine (waits_put hcs).trans (or_congr_right ?_)
    simp [records_of_accepts h.accepted, h.observed]
  refine ⟨h.timely.perform _, h.accepted, ?_, fun c hc hd => ?_⟩
  · rw [hg, hcs.observed]
    exact h.observed
  rw [hg] at hd
  have hleaving : s.Leaving side (c.element side) →
      (s.perform (.mutate side [e])).Leaving side (c.element side) :=
    fun ⟨owner, role, index, hw⟩ => ⟨owner, role, index, hwaits.mpr (.inl hw)⟩
  cases hl : (s.graphs.on side).contains (c.element side) with
  | false => exact hleaving (h.leaving c hc hl)
  | true =>
    rcases ha.1 _ hl hd ⟨c, hc, rfl⟩ with ⟨y, role, hy⟩ | hw
    · obtain ⟨owner, role, index, hm⟩ := (hdeleted _ hl hd).2 y role hy
      exact ⟨owner, role, index, hwaits.mpr (.inr hm)⟩
    · exact hleaving hw

theorem mutate (h : s.Attended side) {es : List Edit} (ha : s.Announced side es) :
    (s.perform (.mutate side es)).Attended side := by
  induction es generalizing s with
  | nil =>
    have hs : s.perform (.mutate side []) = s := by simp [perform, Session.mutate, Graph.editAll]
    rwa [hs]
  | cons e es ih =>
    have hs : s.perform (.mutate side (e :: es)) = (s.perform (.mutate side [e])).perform
        (.mutate side es) := by
      simp [perform, Session.mutate, Graph.editAll]
    rw [hs]
    exact ih (h.mutate_single ⟨ha.1, trivial⟩) ha.2

theorem observe (h : s.Attended side) {t : Side} {on : Bool} (ht : t = side → on = true) :
    Attended { s with graphs := s.graphs.put t ((s.graphs.on t).observe on) } side := by
  have hel : ((s.graphs.put t ((s.graphs.on t).observe on)).on side).elements =
      (s.graphs.on side).elements := by
    cases t <;> cases side <;> rfl
  refine ⟨h.timely.observe t on, h.accepted, ?_, fun c hc hd => ?_⟩
  · by_cases hside : t = side
    · subst hside
      rw [Sided.on_put_self, ht rfl]
      rfl
    · rw [Sided.on_put_of_ne _ _ fun e => hside e.symm]
      exact h.observed
  · rw [Graph.contains, Graph.element?, hel] at hd
    obtain ⟨owner, role, index, hw⟩ := h.leaving c hc hd
    exact ⟨owner, role, index, (waits_observe on).mpr hw⟩

/-- Every action of an attentive history keeps what is attended. -/
theorem performAll (h : s.Attended side) {history : List Action} (ha : s.Attentive side history) :
    (s.performAll history).Attended side := by
  have edited {s : Session} (h : s.Attended side) {t : Side} {es : List Edit}
      (ha : t = side → s.Announced side es) : (s.perform (.mutate t es)).Attended side := by
    by_cases ht : t = side
    · subst ht
      exact h.mutate (ha rfl)
    · exact h.mutate_other ht es
  induction history generalizing s with
  | nil => exact h
  | cons a history ih =>
    refine ih ?_ ha.2
    cases a with
    | edit t es =>
      have hm := edited h.collect ha.1
      rw [perform_edit]
      split
      · exact hm.flush
      · exact hm.collect
    | mutate t es => exact edited h ha.1
    | observe t =>
      unfold perform Session.observe
      dsimp only
      split
      · exact h.observe fun _ => rfl
      · exact h
    | stopObserving t => exact h.collect.observe fun ht => absurd ht ha.1
    | collect => exact h.collect
    | synchronize => exact h.synchronize
    | flush => exact h.flush

/-- When everything that waited was worked off, no pair has lost its element. -/
theorem alive_flush (h : s.Attended side) {report : FlushReport} (hflush : s.flush.1 = .ok report) :
    ∀ c ∈ s.flush.2.pairs.entries,
      (s.flush.2.graphs.on side).contains (c.element side) = true := by
  obtain ⟨hflushed, hempty, _⟩ := flush_spec h.timely.consistent h.timely.dated
  intro c hc
  cases hl : (s.flush.2.graphs.on side).contains (c.element side) with
  | true => rfl
  | false =>
    -- the removal that took the element out of its last role would still wait
    obtain ⟨_, _, _, hw⟩ := h.flush.leaving c hc hl
    rcases hw with ⟨p, hp, _⟩ | ⟨_, hj⟩
    · rw [hempty report hflush] at hp
      cases hp
    · rw [hflushed.journal] at hj
      cases hj

/-- After a pass that succeeded no pair has lost its element. -/
theorem of_synchronize (hs : s.Reachable) {report : Report} (hok : s.synchronize.1 = .ok report)
    (hobserved : s.isObserving side = true) (haccepted : s.options.accepts side = true) :
    s.synchronize.2.Attended side := by
  obtain ⟨hp, halive⟩ := preserves_synchronize hs.timely.consistent
  exact ⟨hs.timely.perform .synchronize, haccepted, (hp.observed side).trans hobserved,
    fun c hc hd => Bool.noConfusion (hd.symm.trans (halive ⟨report, hok⟩ c hc side))⟩

end Attended

/-- Once a pass has succeeded and its side is observed, no pair has lost its element on that side
after a flush that succeeds, over any history in which no paired element is deleted there
unannounced. -/
theorem flush_drops_deleted (hs : s.Reachable) {report : Report}
    (hok : s.synchronize.1 = .ok report) (hobserved : s.isObserving side = true)
    (haccepted : s.options.accepts side = true) {history : List Action}
    (ha : s.synchronize.2.Attentive side history) {report' : FlushReport}
    (hflush : (s.synchronize.2.performAll history).flush.1 = .ok report') :
    ∀ c ∈ (s.synchronize.2.performAll history).flush.2.pairs.entries,
      ((s.synchronize.2.performAll history).flush.2.graphs.on side).contains
        (c.element side) = true := by
  have hend := (Attended.of_synchronize hs hok hobserved haccepted).performAll ha
  exact hend.alive_flush hflush

/-- A node that left the net and one that is still in a role are deleted together. -/
theorem flush_drops_deleted_nodes :
    let s := Sample.carrying
    let history : List Action :=
      [.edit .left [.unlink ⟨0⟩ "nodes" ⟨1⟩, .remove ⟨1⟩, .remove ⟨3⟩]]
    s.Reachable ∧ s.synchronize.1.toOption.isSome = true ∧
      s.synchronize.2.Attentive .left history ∧
      (∃ c ∈ (s.synchronize.2.performAll history).pairs.entries, c.element .left = ⟨1⟩) ∧
      ∀ c ∈ (s.synchronize.2.performAll history).flush.2.pairs.entries,
        ((s.synchronize.2.performAll history).flush.2.graphs.on .left).contains
          (c.element .left) = true := by
  intro s history
  have hs : s.Reachable := Sample.reachable_carrying
  have hok : s.synchronize.1.toOption.isSome = true := by decide +kernel
  have hflush : (s.synchronize.2.performAll history).flush.1.toOption.isSome = true := by
    decide +kernel
  have hset : s.isObserving .left = true ∧ s.options.accepts .left = true := by decide +kernel
  have hpaired : ∃ c ∈ (s.synchronize.2.performAll history).pairs.entries,
      c.element .left = ⟨1⟩ := by decide +kernel
  let t₁ := s.synchronize.2.collect.perform (.mutate .left [.unlink ⟨0⟩ "nodes" ⟨1⟩])
  have hwaits : t₁.options.propagation.records = true ∧
      ⟨⟨0⟩, .referenceRemoved "nodes" 0 ⟨1⟩⟩ ∈ (t₁.graphs.on .left).journal := by
        decide +kernel
  have hlisted :
      ⟨3⟩ ∈ ((t₁.perform (.mutate .left [.remove ⟨1⟩])).graphs.on .left).members
        ⟨2⟩ "next" := by
    decide +kernel
  clear_value s
  have hc : s.synchronize.2.collect.Consistent :=
    (hs.performAll [.synchronize, .collect]).consistent
  have ha : s.synchronize.2.Attentive .left history :=
    ⟨fun _ => announced_cons hc (fun x he => by cases he)
      (announced_remove (.inr ⟨⟨0⟩, "nodes", 0, .inr hwaits⟩)
      (hc.perform _).1
      (announced_remove (.inl ⟨⟨2⟩, "next", hlisted⟩) ((hc.perform _).1.perform _).1 trivial)),
      trivial⟩
  obtain ⟨report, hreport⟩ := exists_ok hok
  obtain ⟨report', hreport'⟩ := exists_ok hflush
  exact ⟨hs, hok, ha, hpaired, flush_drops_deleted hs hreport hset.1 hset.2 ha hreport'⟩

/-- A node whose removal from its role was carried over is then in no role any more: its deletion
goes unnoticed, and the pair stays. -/
theorem flush_keeps_orphaned : Sample.orphaned.Reachable ∧
    Sample.orphaned.flush.1.toOption.isSome = true ∧
    ∃ c ∈ Sample.orphaned.flush.2.pairs.entries, c.element .left = ⟨1⟩ ∧
      (Sample.orphaned.flush.2.graphs.on .left).contains ⟨1⟩ = false :=
  ⟨Sample.reachable_carrying.performAll _, by decide +kernel, by decide +kernel⟩

end GraphSync.Session
