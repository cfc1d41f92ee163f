import GraphSync.Proofs.Flush.Swap
import GraphSync.Proofs.Session.Waiting

namespace GraphSync.Session

open Walk

/-- The same, done on the other side. -/
def Action.swap : Action → Action
  | .edit side es => .edit side.other es
  | .mutate side es => .mutate side.other es
  | .observe side => .observe side.other
  | .stopObserving side => .stopObserving side.other
  | .collect => .collect
  | .synchronize => .synchronize
  | .flush => .flush

/-- Does the action carry over what is queued? -/
def Action.carries (p : Propagation) : Action → Bool
  | .edit _ _ => p.isImmediate
  | .flush => true
  | _ => false

/-- `t` is `s` with left and right exchanged. The queue lists the edits of both sides in the order
in which they were collected, left ones first; what is the same is what a flush that follows one
side carries over. -/
structure Exchanged (s t : Session) : Prop where
  rules : t.rules = s.rules.swap
  rootRule : t.rootRule = s.rootRule
  direction : t.options.direction = s.options.direction.swap
  propagation : t.options.propagation = s.options.propagation
  graphs : t.graphs = s.graphs.swap
  pairs : t.pairs = s.pairs.swap
  queued : s.options.propagation.isTwoWay = false →
    accepted t.options t.queue.items = accepted s.options s.queue.items

variable {s t : Session} {source : Side} {forced : Bool}

theorem accepted_pushAll (o : Options) (q : Queue) (side : Side) (cs : List Change) :
    accepted o (q.pushAll side cs).items = accepted o q.items ++ if o.accepts side then cs
      else [] := by
  induction cs generalizing q with
  | nil => simp [Queue.pushAll]
  | cons c cs ih =>
    have hfirst : accepted o (q.push side c).items = accepted o q.items ++ if o.accepts side then
        [c] else [] := by
      by_cases ha : o.accepts side = true <;> simp [accepted, Queue.push, ha]
    have hall : q.pushAll side (c :: cs) = (q.push side c).pushAll side cs := rfl
    rw [hall, ih, hfirst]
    by_cases ha : o.accepts side = true <;> simp [ha]

theorem accepted_collectFrom (s : Session) (side : Side) :
    accepted s.options (s.collectFrom side).queue.items = accepted s.options s.queue.items ++
      if s.options.accepts side then (s.graphs.on side).journal else [] := by
  unfold collectFrom
  dsimp only
  split
  · exact accepted_pushAll s.options s.queue side _
  · rename_i hrecords
    rw [if_neg fun ha => hrecords (records_of_accepts ha), List.append_nil]

/-- The journal of the left side is queued first. -/
theorem accepted_collect (s : Session) :
    accepted s.options s.collect.queue.items = accepted s.options s.queue.items ++
      (if s.options.accepts .left then (s.graphs.on .left).journal else []) ++
      (if s.options.accepts .right then (s.graphs.on .right).journal else []) := by
  have hright :
      ((s.collectFrom .left).graphs.on .right).journal = (s.graphs.on .right).journal := rfl
  have hfirst := accepted_collectFrom s .left
  have hsecond := accepted_collectFrom (s.collectFrom .left) .right
  rw [hright] at hsecond
  exact hsecond.trans (congrArg (· ++ _) hfirst)

namespace Exchanged

theorem accepts (h : s.Exchanged t) (hd : s.options.direction = .oneWay source forced)
    (side : Side) : t.options.accepts side = s.options.accepts side.other := by
  rw [Options.accepts, Options.accepts, h.direction, h.propagation, hd]
  cases s.options.propagation with
  | oneWay timing => cases side <;> cases source <;> rfl
  | _ => rfl

theorem graphs_on (h : s.Exchanged t) (side : Side) :
    t.graphs.on side = s.graphs.on side.other := by
  rw [h.graphs, Sided.on_swap]

theorem collect (h : s.Exchanged t) (hd : s.options.direction = .oneWay source forced) :
    s.collect.Exchanged t.collect where
  rules := h.rules
  rootRule := h.rootRule
  direction := h.direction
  propagation := h.propagation
  graphs := by
    refine Sided.ext_on .left ?_ ?_ <;>
      rw [Sided.on_swap, collect_graphs, collect_graphs, h.graphs_on]
  pairs := h.pairs
  queued ho := by
    have hsource {side : Side} (ha : s.options.accepts side = true) : side = source :=
      source_of_accepts hd ho ha
    have ht := accepted_collect t
    have hs := accepted_collect s
    simp only [h.accepts hd, h.graphs_on, h.queued ho, Side.other] at ht
    refine ht.trans (Eq.trans ?_ hs.symm)
    -- The journals are queued in the other order, but one side is carried over at most.
    by_cases hl : s.options.accepts .left = true
    · have hr : ¬ s.options.accepts .right = true :=
        fun hr => by cases (hsource hl).trans (hsource hr).symm
      simp [hl, hr]
    · simp [hl]

/-- The edits of one graph are made in the other one. -/
theorem put (h : s.Exchanged t) (side : Side) (f : Graph → Graph) :
    Exchanged { s with graphs := s.graphs.put side (f (s.graphs.on side)) }
      { t with graphs := t.graphs.put side.other (f (t.graphs.on side.other)) } := by
  refine { h with graphs := ?_ }
  rw [h.graphs_on, Side.other_other, h.graphs, Sided.swap_put]

theorem walkState (h : s.Exchanged t) : t.walkState = s.walkState.swap := by
  simp only [Session.walkState, State.swap, h.graphs, h.pairs, List.map_nil]

/-- Walks that leave exchanged states leave exchanged sessions. -/
theorem adopt (h : s.Exchanged t) (w : State) : (s.adopt w).Exchanged (t.adopt w.swap) :=
  { h with graphs := rfl, pairs := rfl }

theorem synchronize (h : s.Exchanged t) (hd : s.options.direction = .oneWay source forced)
    (hs : s.Consistent) :
    s.synchronize.2.Exchanged t.synchronize.2 ∧
      GraphSync.Exchanged (fun r r' => r' = r) s.synchronize.1 t.synchronize.1 := by
  have hc := h.collect hd
  have hkeyed : s.collect.walkState.Keyed := fun side => hs.keyed side
  have hp : t.pass = exec (syncRoots s.rules.swap (.oneWay source.other forced) s.rootRule)
      s.collect.walkState.swap := by
    rw [pass, h.rules, h.direction, hd, h.rootRule, hc.walkState]
    rfl
  have hp' :
      s.pass = exec (syncRoots s.rules (.oneWay source forced) s.rootRule) s.collect.walkState := by
    rw [pass, hd]
  obtain ⟨hstate, hend⟩ := parallel_syncRoots s.rules source forced s.rootRule hkeyed
  rw [← hp, ← hp'] at hstate hend
  rw [synchronize_eq, synchronize_eq, hstate]
  exact ⟨hc.adopt s.pass.2, hend.map fun _ _ _ => rfl⟩

end Exchanged

/-- A flush carries over what is accepted, and at last drops the pairs of deleted elements; so it
does, in effect, if nothing is queued. -/
theorem flush_eq_relay (hd : s.options.direction = .oneWay source forced)
    (ho : s.options.propagation.isTwoWay = false) :
    let x := relay s.rules (.oneWay source forced) source (accepted s.options s.collect.queue.items)
      s.collect.walkState
    ∃ report queue, s.flush = (x.1.1.map fun _ => report,
        { s.collect.adopt (releaseDeleted x.1.2) with queue }) ∧
        accepted s.options queue.items = x.2 := by
  have hdirection : s.options.flushDirection = .oneWay source forced := by
    simp [Options.flushDirection, ho, hd]
  by_cases hempty : s.collect.queue.items = []
  · refine ⟨{}, s.collect.queue, ?_, ?_⟩
    · rw [flush_of_nil hempty, hempty]
      rfl
    · rw [hempty]
      rfl
  · obtain ⟨hend, hwalk, hqueue⟩ := drain_eq_relay s.rules
      (fun _ ha => source_of_accepts hd ho ha) s.collect.queue.items
      (f := { queue := s.collect.queue, walk := s.collect.walkState }) rfl
    rw [hdirection] at hend hwalk hqueue
    refine ⟨{ s.drained.2.report with conflicts :=
      (releaseDeleted s.drained.2.walk).report.conflicts }, s.drained.2.queue, ?_, hqueue⟩
    rw [flush_of_ne_nil hempty, ← hend, ← hwalk]
    rfl

namespace Exchanged

theorem flush (h : s.Exchanged t) (hd : s.options.direction = .oneWay source forced)
    (ho : s.options.propagation.isTwoWay = false) (hs : s.Consistent) :
    s.flush.2.Exchanged t.flush.2 ∧
    GraphSync.Exchanged (fun _ _ => True) s.flush.1 t.flush.1 := by
  have hc := h.collect hd
  have hkeyed : s.collect.walkState.Keyed := fun side => hs.keyed side
  have hd' : t.options.direction = .oneWay source.other forced := by rw [h.direction, hd]; rfl
  have ho' : t.options.propagation.isTwoWay = false := by rw [h.propagation, ho]
  obtain ⟨report, queue, hf, hq⟩ := flush_eq_relay hd ho
  obtain ⟨report', queue', hf', hq'⟩ := flush_eq_relay hd' ho'
  have hqueued : accepted t.options t.collect.queue.items =
      accepted s.options s.collect.queue.items := hc.queued ho
  rw [h.rules, hqueued, hc.walkState] at hf' hq'
  obtain ⟨hend, hstate, hleft⟩ := relay_swap s.rules source forced source
    (accepted s.options s.collect.queue.items) hkeyed
  rw [hf, hf']
  refine ⟨?_, hend.map fun _ _ _ => trivial⟩
  rw [hstate, releaseDeleted_swap]
  exact { hc.adopt _ with queued := fun _ => hq'.trans (hleft.trans hq.symm) }

theorem observed (h : s.Exchanged t) (side : Side) (on : Bool) :
    Exchanged { s with graphs := s.graphs.put side ((s.graphs.on side).observe on) }
      { t with graphs := t.graphs.put side.other ((t.graphs.on side.other).observe on) } :=
  h.put side (·.observe on)

theorem perform (h : s.Exchanged t) (hd : s.options.direction = .oneWay source forced)
    (hs : s.Consistent) {a : Action}
    (ha : a.carries s.options.propagation = true → s.options.propagation.isTwoWay = false) :
    (s.perform a).Exchanged (t.perform a.swap) := by
  cases a with
  | edit side es =>
    have hm : (s.collect.perform (.mutate side es)).Exchanged
        (t.collect.perform (.mutate side.other es)) :=
      (h.collect hd).put side (·.editAll es)
    have hcollect : s.collect.Consistent := (hs.perform .collect).1
    rw [Action.swap, perform_edit, perform_edit, h.propagation]
    split
    · rename_i himmediate
      exact (hm.flush hd (ha himmediate) (hcollect.perform (.mutate side es)).1).1
    · exact hm.collect hd
  | mutate side es => exact h.put side (·.editAll es)
  | observe side =>
    simp only [Action.swap, Session.perform, Session.observe, h.propagation]
    split
    · exact h.observed side true
    · exact h
  | stopObserving side => exact (h.collect hd).observed side false
  | collect => exact h.collect hd
  | synchronize => exact (h.synchronize hd hs).1
  | flush => exact (h.flush hd (ha rfl) hs).1

theorem performAll {history : List Action} (h : s.Exchanged t)
    (hd : s.options.direction = .oneWay source forced) (hs : s.Consistent)
    (hhistory : ∀ a ∈ history, a.carries s.options.propagation = true →
      s.options.propagation.isTwoWay = false) :
    (s.performAll history).Exchanged (t.performAll (history.map Action.swap)) := by
  induction history generalizing s t with
  | nil => exact h
  | cons a history ih =>
    have ho := (s.perform_settings a).2.2
    refine ih (h.perform hd hs (hhistory a List.mem_cons_self)) (by rw [ho, hd]) (hs.perform a).1 ?_
    rw [ho]
    exact fun b hb => hhistory b (List.mem_cons_of_mem a hb)

end Exchanged

/-- Two sessions start over the same two graphs, on exchanged sides, with the same rules, read in
the other direction, and follow opposite sides. Whatever edits are made on the one side in the first
and on the other side in the second, with passes in between, the second session holds the graphs and
the pairs of the first one with the sides exchanged, under the same handles and down to what is
remembered, and the next pass ends with the same report in both, or with an error of one kind. Edits
may also be carried over one by one, from the source side. -/
theorem performAll_swap {rules : RuleSet} {rootRule : RuleName} {graphs : Sided Graph}
    {propagation : Propagation} (hgraphs : ∀ side, (graphs.on side).Built) (source : Side)
    (forced : Bool) (history : List Action)
    (hhistory : ∀ a ∈ history, a.carries propagation = true → propagation.isTwoWay = false) :
    let s := performAll
      { rules, rootRule, graphs, options := { direction := .oneWay source forced, propagation } }
      history
    let t := performAll
      { rules := rules.swap
        rootRule
        graphs := graphs.swap
        options := { direction := .oneWay source.other forced, propagation } }
        (history.map Action.swap)
    t.graphs = s.graphs.swap ∧ t.pairs = s.pairs.swap ∧
      GraphSync.Exchanged (fun report report' => report' = report)
        s.synchronize.1 t.synchronize.1 := by
  intro s t
  let s₀ : Session :=
    { rules, rootRule, graphs, options := { direction := .oneWay source forced, propagation } }
  have hstart : s₀.Exchanged
      { rules := rules.swap
        rootRule
        graphs := graphs.swap
        options := { direction := .oneWay source.other forced, propagation } } :=
    ⟨rfl, rfl, rfl, rfl, rfl, rfl, fun _ => rfl⟩
  have hconsistent : s₀.Consistent := .empty _ fun side => (hgraphs side).sound
  have h : s.Exchanged t := hstart.performAll rfl hconsistent hhistory
  have hs : s.Reachable := ⟨rules, rootRule, graphs, _, history, hgraphs, rfl⟩
  have hd : s.options.direction = .oneWay source forced :=
    congrArg Options.direction (s₀.performAll_settings history).2.2
  exact ⟨h.graphs, h.pairs, (h.synchronize hd hs.consistent).2⟩

/-- The diamond is copied, edits of it are carried over at once, and a copy is renamed; then there
is something to do for the next pass. -/
theorem performAll_swap_diamond :
    let graphs := (Sample.copying (.oneWay .left true)).graphs
    let history : List Action := [.observe .left, .synchronize,
      .edit .left
        [.set ⟨1⟩ "name" (.text "c"), .unlink ⟨0⟩ "nodes" ⟨2⟩, .remove ⟨3⟩],
      .mutate .right [.set ⟨1⟩ "name" (.text "d")]]
    let s := performAll
      { rules := Sample.networkRules
        rootRule := "NetToNet"
        graphs
        options := { direction := .oneWay .left true, propagation := .oneWay .immediate } } history
    let t := performAll
      { rules := Sample.networkRules.swap
        rootRule := "NetToNet"
        graphs := graphs.swap
        options := { direction := .oneWay .right true, propagation := .oneWay .immediate } }
        (history.map Action.swap)
    (∀ side, (graphs.on side).Built) ∧
      (∀ a ∈ history, a.carries (.oneWay .immediate) = true →
        Propagation.isTwoWay (.oneWay .immediate) = false) ∧
      s.pairs.entries ≠ [] ∧ s.synchronize.1.toOption.map Report.isNoop = some false ∧
      t.graphs = s.graphs.swap ∧ t.pairs = s.pairs.swap ∧
      GraphSync.Exchanged (fun report report' => report' = report)
        s.synchronize.1 t.synchronize.1 := by
  intro graphs history s t
  have hgraphs : ∀ side, (graphs.on side).Built := Sample.built_copying (.oneWay .left true)
  have hhistory : ∀ a ∈ history, a.carries (.oneWay .immediate) = true →
      Propagation.isTwoWay (.oneWay .immediate) = false := fun _ _ _ => rfl
  have hpairs : s.pairs.entries ≠ [] := by decide +kernel
  have hpass : s.synchronize.1.toOption.map Report.isNoop = some false := by decide +kernel
  exact ⟨hgraphs, hhistory, hpairs, hpass, performAll_swap hgraphs .left true history hhistory⟩

end GraphSync.Session
