import GraphSync.Proofs.Flush.Deletions
import GraphSync.Proofs.Session.Trail

namespace GraphSync.Session

open Walk

variable {s : Session} {k : OneWay} {source : Side} {forced : Bool} {report : Report}

/-- Only that side is edited. Every flush on the way succeeds, that of an edit with immediate
propagation included, and the graph of the side is tidy after each action. -/
def Edits (s : Session) (side : Side) : List Action → Prop
  | [] => True
  | a :: history =>
    (match a with
      | .edit t es => t = side ∧ ∃ report,
          (s.edit t fun g => ((), g.editAll es)).2.1 = .ok report
      | .mutate t _ => t = side
      | .flush => ∃ report, s.flush.1 = .ok report
      | _ => False) ∧
      ((s.perform a).graphs.on side).Tidy ∧ (s.perform a).Edits side history

/-- With immediate propagation an edit answers what its flush does. -/
theorem edit_of_immediate (h : s.options.propagation.isImmediate = true) (side : Side)
    (es : List Edit) :
    (s.edit side fun g => ((), g.editAll es)).2.1 =
      (s.collect.perform (.mutate side es)).flush.1 := by
  have hi : (s.collect.mutate side fun g => ((), g.editAll es)).2.options.propagation.isImmediate =
      true := h
  simp only [Session.edit, if_pos hi]
  rfl

theorem edit_of_deferred (h : s.options.propagation.isImmediate = false) (side : Side)
    (es : List Edit) : (s.edit side fun g => ((), g.editAll es)).2.1 = .ok {} := by
  have hi :
      ¬ (s.collect.mutate side fun g => ((), g.editAll es)).2.options.propagation.isImmediate =
        true := by
    rw [Bool.not_eq_true]
    exact h
  simp only [Session.edit, if_neg hi]

namespace Trails

section Runs

variable (hroles : k.rules.UniqueRoles k.target) (hattributes : k.rules.UniqueAttributes k.target)

include hroles hattributes

theorem flushed (h : s.Trails k) (hs : s.Consistent) (htidy : (s.graphs.on k.source).Tidy)
    {report : FlushReport} (hok : s.flush.1 = .ok report) : s.flush.2.Trails k := by
  have hoptions : s.flush.2.options = s.options := (s.perform_settings .flush).2.2
  refine ⟨h.follows.flush, ?_, ?_,
    (h.flush htidy hroles hattributes hok).mono fun _ _ _ => False.elim⟩
  · rw [hoptions]
    exact h.accepted
  · rw [source_flush h.follows hs]
    exact h.observed

/-- An edit leaves what it calls for to be done, or does it at once. -/
theorem edit (h : s.Trails k) (hs : s.Consistent) {es : List Edit}
    (htidy : (s.graphs.on k.source).Tidy) {report : FlushReport}
    (hok : (s.edit k.source fun g => ((), g.editAll es)).2.1 = .ok report)
    (htidy' : ((s.perform (.edit k.source es)).graphs.on k.source).Tidy) :
    (s.perform (.edit k.source es)).Trails k := by
  have hm : (s.collect.perform (.mutate k.source es)).Consistent :=
    ((hs.perform .collect).1.perform _).1
  have hcollect : (s.collect.graphs.on k.source).Tidy := by
    rw [collect_graphs]
    exact Graph.tidy_takeChanges.mpr htidy
  rw [perform_edit] at htidy' ⊢
  split at htidy' <;> rename_i hi
  · rw [edit_of_immediate hi] at hok
    have hf := (h.follows.collect).perform (.mutate k.source es)
    have hedited : ((s.collect.perform (.mutate k.source es)).graphs.on k.source).Tidy := by
      change (((s.collect.perform (.mutate k.source es)).flush.2).graphs.on k.source).Tidy at htidy'
      rw [source_flush hf hm] at htidy'
      exact Graph.tidy_takeChanges.mp htidy'
    rw [if_pos hi]
    exact (h.collect.mutate hcollect hedited).flushed hroles hattributes hm hedited hok
  · have hedited : ((s.collect.perform (.mutate k.source es)).graphs.on k.source).Tidy := by
      change (((s.collect.perform (.mutate k.source es)).collect).graphs.on k.source).Tidy at htidy'
      rw [collect_graphs] at htidy'
      exact Graph.tidy_takeChanges.mp htidy'
    rw [if_neg hi]
    exact (h.collect.mutate hcollect hedited).collect

theorem performAll {history : List Action} (h : s.Trails k) (hs : s.Consistent)
    (htidy : (s.graphs.on k.source).Tidy) (he : s.Edits k.source history) :
    (s.performAll history).Trails k ∧ ((s.performAll history).graphs.on k.source).Tidy := by
  induction history generalizing s with
  | nil => exact ⟨h, htidy⟩
  | cons a history ih =>
    obtain ⟨ha, htidy', hrest⟩ := he
    refine ih ?_ (hs.perform a).1 htidy' hrest
    cases a with
    | edit t es =>
      obtain ⟨rfl, report, hok⟩ := ha
      exact h.edit hroles hattributes hs htidy hok htidy'
    | mutate t es =>
      obtain rfl := ha
      exact h.mutate htidy htidy'
    | flush =>
      obtain ⟨report, hok⟩ := ha
      exact h.flushed hroles hattributes hs htidy hok
    | _ => exact ha.elim

end Runs

end Trails

/-- Where nothing is owed and no pair has lost its source, the next pass does nothing. -/
theorem synchronize_of_trails (hd : s.Directed k) (hquiet : s.Quiet)
    (h : k.Trails (fun _ _ _ => False) s.walkState)
    (hlive : ∀ c ∈ s.pairs.entries, (s.graphs.on k.source).contains (c.element k.source) = true)
    (ho : k.Ordered s.graphs s.pairs) : s.synchronize = (.ok {}, s) := by
  have hpass : s.pass = exec (syncRoots k.rules k.direction k.rootRule) s.walkState := by
    rw [pass, hquiet.collect, hd.rules, hd.rootRule, hd.direction]
  have hrun := h.repeats hlive ho rfl
  rcases hx : exec (syncRoots k.rules k.direction k.rootRule) s.walkState with ⟨_ | _, w⟩
  · rw [wp, hx] at hrun
    exact hrun.elim
  · rw [wp, hx] at hrun
    obtain ⟨_, visited, conflicts, _, hnone, rfl⟩ := hrun
    obtain rfl := List.subset_nil.mp hnone
    exact hquiet.synchronize (hpass.trans hx) rfl rfl

/-- After a pass that succeeded, edits of the side that is followed and a flush that succeeds,
another pass succeeds without any effect. Flushes on the way have succeeded, and deleted elements
were in some role. -/
theorem synchronize_after_flush (hs : s.Reachable) {timing : Timing}
    (hd : s.options.direction = .oneWay source forced) (hp : s.options.propagation = .oneWay timing)
    (hattributes : s.rules.UniqueAttributes source.other)
    (hroles : s.rules.UniqueRoles source.other) (hok : s.synchronize.1 = .ok report)
    (hobserved : s.isObserving source = true) (htidy : (s.synchronize.2.graphs.on source).Tidy)
    {history : List Action} (hedits : s.synchronize.2.Edits source history)
    (hattentive : s.synchronize.2.Attentive source history) {flushed : FlushReport}
    (hflush : (s.synchronize.2.performAll history).flush.1 = .ok flushed)
    (hordered : (s.oneWay source forced).Ordered (s.synchronize.2.performAll history).flush.2.graphs
      (s.synchronize.2.performAll history).flush.2.pairs) :
    ∃ again : Report, again.isNoop = true ∧
      (s.synchronize.2.performAll history).flush.2.synchronize =
      (.ok again, (s.synchronize.2.performAll history).flush.2) := by
  have haccepted : s.options.accepts source = true := by
    simp [Options.accepts, hp, hd, Propagation.accepts, Direction.source]
  have ho : s.options.propagation.isTwoWay = false := by
    rw [hp]
    rfl
  have hstart := Trails.of_synchronize hs hd ho haccepted hroles hattributes hok hobserved htidy
  have hconsistent : s.synchronize.2.Consistent := (hs.consistent.perform .synchronize).1
  obtain ⟨hend, htidy'⟩ := hstart.performAll hroles hattributes hconsistent htidy hedits
  have hattended := (Attended.of_synchronize hs hok hobserved haccepted).performAll hattentive
  obtain ⟨hflushed, _⟩ := flush_spec hattended.timely.consistent hattended.timely.dated
  exact ⟨{}, rfl, synchronize_of_trails hend.follows.flush.toDirected hflushed.journal
    (hend.flush htidy' hroles hattributes hflush) (hattended.alive_flush hflush) hordered⟩

/-- A node is added, one is renamed and leaves the net, and one is deleted. -/
theorem synchronize_after_flush_nodes :
    let s := Sample.carrying
    let history : List Action :=
      [.edit .left [.add "Node", .push ⟨0⟩ "nodes" ⟨4⟩, .push ⟨4⟩ "next" ⟨1⟩],
      .edit .left [.set ⟨1⟩ "name" (.text "c"), .unlink ⟨0⟩ "nodes" ⟨1⟩],
        .mutate .left [.remove ⟨3⟩]]
    let t := (s.synchronize.2.performAll history).flush.2
    s.Reachable ∧ s.synchronize.1.toOption.isSome = true ∧
      s.synchronize.2.Edits .left history ∧ s.synchronize.2.Attentive .left history ∧
      (s.synchronize.2.performAll history).flush.1.toOption.isSome = true ∧
      ∃ again : Report, again.isNoop = true ∧ t.synchronize = (.ok again, t) := by
  intro s history t
  have hs : s.Reachable := Sample.reachable_carrying
  have hset : s.options.direction = .oneWay .left true ∧
      s.options.propagation = .oneWay .deferred ∧
      s.rules.UniqueAttributes .right ∧ s.rules.UniqueRoles .right ∧
      s.isObserving .left = true := by decide +kernel
  obtain ⟨hd, hp, hattributes, hroles, hobserved⟩ := hset
  have hok : s.synchronize.1.toOption.isSome = true := by decide +kernel
  have hflush : (s.synchronize.2.performAll history).flush.1.toOption.isSome = true := by
    decide +kernel
  have hordered : (s.oneWay .left true).Ordered t.graphs t.pairs := by decide +kernel
  let u₁ :=
    s.synchronize.2.perform
      (.edit .left [.add "Node", .push ⟨0⟩ "nodes" ⟨4⟩, .push ⟨4⟩ "next" ⟨1⟩])
  let u₂ :=
    u₁.perform (.edit .left [.set ⟨1⟩ "name" (.text "c"), .unlink ⟨0⟩ "nodes" ⟨1⟩])
  let u₃ := u₂.perform (.mutate .left [.remove ⟨3⟩])
  have hvalues : ∀ u ∈ [s.synchronize.2, u₁, u₂, u₃],
      ∀ e ∈ (u.graphs.on .left).elements,
      ∀ a ∈ e.attributes.entries, a.2.isPlain = true := by decide +kernel
  have hreferrers : ∀ u ∈ [s.synchronize.2, u₁, u₂, u₃],
      (u.graphs.on .left).referrers ⟨0⟩ = [] := by decide +kernel
  have htidy (u : Session) (hu : u ∈ [s.synchronize.2, u₁, u₂, u₃]) :
      (u.graphs.on .left).Tidy :=
    Graph.tidy_of (hvalues u hu) (hreferrers u hu)
  have hlisted : ⟨3⟩ ∈ (u₂.graphs.on .left).members ⟨2⟩ "next" := by decide +kernel
  clear_value s
  have hc : s.synchronize.2.Consistent := (hs.performAll [.synchronize]).consistent
  have hoptions : s.synchronize.2.options = s.options := rfl
  have hdeferred : s.synchronize.2.options.propagation.isImmediate = false ∧
      u₁.options.propagation.isImmediate = false := by
    rw [show u₁.options = s.synchronize.2.options from (perform_settings _ _).2.2, hoptions, hp]
    exact ⟨rfl, rfl⟩
  have hedits : s.synchronize.2.Edits .left history :=
    ⟨⟨rfl, _, edit_of_deferred hdeferred.1 .left _⟩, htidy u₁ (by simp),
      ⟨rfl, _, edit_of_deferred hdeferred.2 .left _⟩, htidy u₂ (by simp), rfl,
      htidy u₃ (by simp), trivial⟩
  have ha : s.synchronize.2.Attentive .left history :=
    ⟨fun _ => announced_of_keeps (hc.perform .collect).1 (by simp),
      fun _ => announced_of_keeps ((hc.perform _).1.perform .collect).1 (by simp),
      fun _ => announced_remove (.inl ⟨⟨2⟩, "next", hlisted⟩)
        ((hc.perform _).1.perform _).1 trivial, trivial⟩
  obtain ⟨report, hreport⟩ := exists_ok hok
  obtain ⟨flushed, hflushed⟩ := exists_ok hflush
  exact ⟨hs, hok, hedits, ha, hflush,
    synchronize_after_flush hs hd hp hattributes hroles hreport hobserved
    (htidy _ (by simp)) hedits ha hflushed hordered⟩

end GraphSync.Session
