import GraphSync.Proofs.Graph.Records
import GraphSync.Proofs.Session.Drain
import GraphSync.Proofs.Session.Waiting

namespace GraphSync

namespace Queue

/-- Records of one side, numbered on from `n`. -/
def stamp (n : Nat) (side : Side) : List Change → List Pending
  | [] => []
  | c :: cs => ⟨n, side, c⟩ :: stamp (n + 1) side cs

variable {n : Nat} {side : Side} {cs : List Change}

@[simp] theorem length_stamp : (stamp n side cs).length = cs.length := by
  induction cs generalizing n with
  | nil => rfl
  | cons c cs ih => simp [stamp, ih]

theorem sequence_stamp : (stamp n side cs).map Pending.sequence = List.range' n cs.length := by
  induction cs generalizing n with
  | nil => rfl
  | cons c cs ih => simp [stamp, ih, List.range'_succ]

theorem change_stamp (t : Side) :
    ((stamp n side cs).filter (·.side = t)).map Pending.change = if side = t then cs else [] := by
  induction cs generalizing n with
  | nil => simp [stamp]
  | cons c cs ih =>
    have hrest := ih (n := n + 1)
    by_cases ht : side = t
    · rw [if_pos ht] at hrest ⊢
      simp [stamp, ht]
      simpa [ht] using hrest
    · rw [if_neg ht] at hrest ⊢
      simpa [stamp, ht] using hrest

theorem pushAll_eq (q : Queue) (side : Side) (cs : List Change) :
    q.pushAll side cs =
      { items := q.items ++ stamp q.next side cs, next := q.next + cs.length } := by
  induction cs generalizing q with
  | nil => simp [pushAll, stamp]
  | cons c cs ih =>
    have hcons : q.pushAll side (c :: cs) = (q.push side c).pushAll side cs := rfl
    rw [hcons, ih]
    simp [push, stamp, Nat.add_assoc, Nat.add_comm 1]

/-- The items are numbered in the order in which they joined, and below the next number. -/
structure Ordered (q : Queue) : Prop where
  sorted : q.items.Pairwise (·.sequence < ·.sequence)
  bounded : ∀ p ∈ q.items, p.sequence < q.next

end Queue

namespace Session

open Queue

variable {s t u : Session} {side : Side} {joined joined' : List Pending}
  {written written' : Side → List Change}

/-- What joins the queue when the journals are emptied. -/
def intake (s : Session) : List Pending := s.collect.queue.items.drop s.queue.items.length

/-- What joins the queue during an action. An edit through the session empties the journals before
and after it. -/
def entered (s : Session) : Action → List Pending
  | .edit side es => s.intake ++ (s.collect.perform (.mutate side es)).intake
  | .mutate _ _ | .observe _ => []
  | .stopObserving _ | .collect | .synchronize | .flush => s.intake

/-- What joins the queue during a run. -/
def enteredAll (s : Session) : List Action → List Pending
  | [] => []
  | a :: history => s.entered a ++ (s.perform a).enteredAll history

/-- What edits of side `t` do to `side` while it is observed. -/
def recordsOn (s : Session) (side t : Side) (es : List Edit) : List Change :=
  if t = side ∧ s.isObserving side then (s.graphs.on side).recordsAll es else []

/-- What the user's own edits do to a side while it is observed. -/
def recorded (s : Session) (side : Side) : Action → List Change
  | .edit t es => s.collect.recordsOn side t es
  | .mutate t es => s.recordsOn side t es
  | _ => []

/-- What they do during a run. -/
def recordedAll (s : Session) (side : Side) : List Action → List Change
  | [] => []
  | a :: history => s.recorded side a ++ (s.perform a).recordedAll side history

/-- The left journal comes first. -/
theorem collect_queue (s : Session) : s.collect.queue =
    if s.options.propagation.records then
      { items := s.queue.items ++ (stamp s.queue.next .left s.graphs.left.journal ++
          stamp (s.queue.next + s.graphs.left.journal.length) .right s.graphs.right.journal)
        next := s.queue.next + (s.graphs.left.journal.length + s.graphs.right.journal.length) }
    else s.queue := by
  have hcollect : s.collect.queue = if s.options.propagation.records then
      (s.queue.pushAll .left s.graphs.left.journal).pushAll .right s.graphs.right.journal
        else s.queue := by
    cases hr : s.options.propagation.records <;>
      simp [collect, Side.all, collectFrom, hr, Graph.takeChanges, Sided.on, Sided.put]
  rw [hcollect]
  split
  · rw [pushAll_eq, pushAll_eq]
    simp [Nat.add_assoc]
  · rfl

theorem intake_eq (s : Session) : s.intake = if s.options.propagation.records then
    stamp s.queue.next .left s.graphs.left.journal ++
      stamp (s.queue.next + s.graphs.left.journal.length) .right s.graphs.right.journal
        else [] := by
  rw [intake, collect_queue]
  split <;> simp

/-- Between two states these items have joined the queue, and these are the records of what users
wrote. What was queued or joined has left from the front or is still there, and of what was in a
journal or was written, the part that did not join is still in the journal. -/
structure Ledger (s t : Session) (joined : List Pending)
    (written : Side → List Change) : Prop where
  options : t.options = s.options
  queue : t.queue.items <:+ s.queue.items ++ joined
  next : t.queue.next = s.queue.next + joined.length
  sequences : joined.map Pending.sequence = List.range' s.queue.next joined.length
  journals : s.options.propagation.records = true → ∀ side,
    (s.graphs.on side).journal ++ written side =
    (joined.filter (·.side = side)).map Pending.change ++ (t.graphs.on side).journal
  off : ¬ s.options.propagation.records = true → joined = []

namespace Ledger

/-- Nothing joins, and the journals stay as they are but for what is written. -/
theorem quiet (ho : t.options = s.options) (hi : t.queue.items <:+ s.queue.items)
    (hn : t.queue.next = s.queue.next) (hj : s.options.propagation.records = true →
      ∀ side, (t.graphs.on side).journal = (s.graphs.on side).journal ++ written side) :
    s.Ledger t [] written where
  options := ho
  queue := by simpa using hi
  next := hn
  sequences := rfl
  journals hr side := (hj hr side).symm
  off _ := rfl

theorem trans (h : s.Ledger t joined written) (h' : t.Ledger u joined' written') :
    s.Ledger u (joined ++ joined') fun side => written side ++ written' side where
  options := h'.options.trans h.options
  queue := by
    obtain ⟨left, hl⟩ := h.queue
    exact h'.queue.trans ⟨left, by rw [← List.append_assoc, hl, List.append_assoc]⟩
  next := by
    rw [h'.next, h.next, List.length_append]
    omega
  sequences := by
    rw [List.map_append, h.sequences, h'.sequences, h.next, List.length_append,
      List.range'_append_1]
  journals hr side := by
    rw [← List.append_assoc, h.journals hr side, List.append_assoc,
      h'.journals (h.options ▸ hr) side, List.filter_append, List.map_append, List.append_assoc]
  off hr := by
    rw [h.off hr, h'.off (h.options ▸ hr)]
    rfl

/-- What waits at the end waited at the start, or has got a number since. -/
theorem later (h : s.Ledger t joined written) {p : Pending} (hp : p ∈ t.queue.items) :
    p ∈ s.queue.items ∨ s.queue.next ≤ p.sequence := by
  refine (List.mem_append.mp (h.queue.subset hp)).imp_right fun hj => ?_
  have hseq : p.sequence ∈ joined.map Pending.sequence := List.mem_map_of_mem hj
  rw [h.sequences, List.mem_range'_1] at hseq
  exact hseq.1

theorem ordered (h : s.Ledger t joined written) (ho : s.queue.Ordered) : t.queue.Ordered := by
  have hall : (s.queue.items ++ joined).Pairwise (·.sequence < ·.sequence) := by
    have hjoined : joined.Pairwise (·.sequence < ·.sequence) := by
      rw [← List.pairwise_map, h.sequences]
      exact List.pairwise_lt_range'
    refine List.pairwise_append.mpr ⟨ho.sorted, hjoined, fun p hp q hq => ?_⟩
    have hseq : q.sequence ∈ joined.map Pending.sequence := List.mem_map_of_mem hq
    rw [h.sequences, List.mem_range'_1] at hseq
    exact Nat.lt_of_lt_of_le (ho.bounded p hp) hseq.1
  refine ⟨hall.sublist h.queue.sublist, fun p hp => ?_⟩
  rw [h.next]
  rcases List.mem_append.mp (h.queue.subset hp) with hold | hj
  · exact Nat.lt_add_right _ (ho.bounded p hold)
  · have hseq : p.sequence ∈ joined.map Pending.sequence := List.mem_map_of_mem hj
    rw [h.sequences, List.mem_range'_1] at hseq
    exact hseq.2

end Ledger

theorem ledger_collect (s : Session) : s.Ledger s.collect s.intake fun _ => [] where
  options := rfl
  queue := by
    rw [collect_queue, intake_eq]
    split <;> simp
  next := by
    rw [collect_queue, intake_eq]
    split <;> simp
  sequences := by
    rw [intake_eq]
    split
    · rw [List.map_append, sequence_stamp, sequence_stamp, List.range'_append_1]
      simp
    · rfl
  journals hr side := by
    rw [quiet_collect s side, intake_eq, if_pos hr, List.filter_append, List.map_append,
      change_stamp, change_stamp]
    cases side <;> simp [Sided.on]
  off hr := by rw [intake_eq, if_neg hr]

theorem ledger_mutate (h : s.Consistent) (side : Side) (es : List Edit) :
    s.Ledger (s.perform (.mutate side es)) [] fun t => s.recorded t (.mutate side es) := by
  refine .quiet rfl (List.suffix_refl _) rfl fun _ t => ?_
  have hgraphs : (s.perform (.mutate side es)).graphs =
      s.graphs.put side ((s.graphs.on side).editAll es) := rfl
  rw [hgraphs, recorded, recordsOn]
  by_cases ht : side = t
  · subst ht
    rw [Sided.on_put_self, (h.sound side).journal_editAll]
    simp [isObserving]
  · rw [Sided.on_put_of_ne _ _ fun e => ht e.symm]
    simp [ht]

theorem ledger_switch (side : Side) (on : Bool) :
    s.Ledger { s with graphs := s.graphs.put side ((s.graphs.on side).observe on) } [] fun _ =>
      [] := by
  refine .quiet rfl (List.suffix_refl _) rfl fun _ t => ?_
  cases side <;> cases t <;> simp [Sided.put, Sided.on, Graph.observe]

/-- What a pass writes itself does not join the queue. -/
theorem ledger_synchronize (s : Session) : s.Ledger s.synchronize.2 s.intake fun _ => [] := by
  have hpass : s.collect.Ledger s.synchronize.2 [] fun _ => [] := by
    refine .quiet rfl (List.suffix_refl _) rfl fun _ side => ?_
    rw [quiet_synchronize, quiet_collect, List.append_nil]
  simpa using s.ledger_collect.trans hpass

/-- Neither does what a flush writes. -/
theorem ledger_flush (s : Session) : s.Ledger s.flush.2 s.intake fun _ => [] := by
  have hafter (w : Walk.State) (rest : List Pending) (hrest : rest <:+ s.collect.queue.items) :
      s.collect.Ledger (s.afterFlush w rest) [] fun _ => [] := by
    refine .quiet rfl hrest rfl fun _ side => ?_
    rw [quiet_collect, List.append_nil]
    exact journal_adopt s.collect (Walk.releaseDeleted w) side
  have hflush : s.collect.Ledger s.flush.2 [] fun _ => [] := by
    rcases s.flush_cases with ⟨log, w, _, _, he⟩ | ⟨log, p, rest, e, w, _, hitems, he⟩
    · rw [he]
      exact hafter w [] List.nil_suffix
    · rw [he]
      exact hafter w rest ⟨log.map Prod.fst ++ [p], by simp [hitems]⟩
  simpa using s.ledger_collect.trans hflush

theorem ledger_perform (h : s.Consistent) (a : Action) :
    s.Ledger (s.perform a) (s.entered a) fun side => s.recorded side a := by
  cases a with
  | edit side es =>
    have hcollect : s.collect.Consistent := (h.perform .collect).1
    have hmutate := s.ledger_collect.trans (ledger_mutate hcollect side es)
    have hwritten : (fun t => s.recorded t (.edit side es)) =
        fun t => ([] ++ s.collect.recorded t (.mutate side es)) ++ [] := by
      funext t
      simp [recorded]
    have later {b : Action} (hb : (s.collect.perform (.mutate side es)).Ledger
        ((s.collect.perform (.mutate side es)).perform b)
        (s.collect.perform (.mutate side es)).intake fun _ => []) :
        s.Ledger ((s.collect.perform (.mutate side es)).perform b)
          (s.entered (.edit side es)) fun t =>
            s.recorded t (.edit side es) := by
      rw [hwritten]
      simpa [entered] using hmutate.trans hb
    rw [perform_edit]
    split
    · exact later (ledger_flush _)
    · exact later (ledger_collect _)
  | mutate side es => exact ledger_mutate h side es
  | observe side =>
    unfold perform observe
    dsimp only
    split
    · exact s.ledger_switch side true
    · exact .quiet rfl (List.suffix_refl _) rfl fun _ _ => (List.append_nil _).symm
  | stopObserving side =>
    have hstop := s.ledger_collect.trans (s.collect.ledger_switch side false)
    rw [List.append_nil] at hstop
    exact hstop
  | collect => exact s.ledger_collect
  | synchronize => exact s.ledger_synchronize
  | flush => exact s.ledger_flush

theorem ledger_performAll (h : s.Consistent) (history : List Action) :
    s.Ledger (s.performAll history) (s.enteredAll history) fun side =>
      s.recordedAll side history := by
  induction history generalizing s with
  | nil => exact .quiet rfl (List.suffix_refl _) rfl fun _ _ => (List.append_nil _).symm
  | cons a history ih => exact (ledger_perform h a).trans (ih (h.perform a).1)

theorem Reachable.ordered (h : s.Reachable) : s.queue.Ordered := by
  obtain ⟨rules, rootRule, graphs, options, history, hg, rfl⟩ := h
  have hstart : Consistent { rules, rootRule, graphs, options } :=
    .empty _ fun side => (hg side).sound
  exact (ledger_performAll hstart history).ordered ⟨.nil, fun _ hp => by cases hp⟩

/-- **No edit is lost, duplicated or echoed.** Whatever is done to a session that starts with empty
journals, what joined its queue on behalf of a side, followed by what is still in the journal of
that side, is what the user's own edits did to that side while it was observed, in the order in
which they were made. The items that joined are numbered in that order without a gap, and those that
wait are the last ones. Where edits are not recorded, none ever joins. -/
theorem queue_exact (hpairs : s.pairs = {}) (hqueue : s.queue = {})
    (hbuilt : ∀ side, (s.graphs.on side).Built) (hjournal : s.Quiet) (history : List Action) :
    let t := s.performAll history
    (s.options.propagation.records = true → ∀ side,
      ((s.enteredAll history).filter (·.side = side)).map Pending.change ++
        (t.graphs.on side).journal = s.recordedAll side history) ∧
    (s.enteredAll history).map Pending.sequence = List.range t.queue.next ∧
    t.queue.items <:+ s.enteredAll history ∧
    (s.options.propagation = .off → s.enteredAll history = [] ∧ t.queue = {}) := by
  intro t
  have hconsistent : s.Consistent := by
    rw [Consistent, hpairs]
    exact .empty _ fun side => (hbuilt side).sound
  have hledger := ledger_performAll hconsistent history
  have hnext : t.queue.next = (s.enteredAll history).length := by
    rw [hledger.next, hqueue, Nat.zero_add]
  have hitems : t.queue.items <:+ s.enteredAll history := by
    have hsuffix := hledger.queue
    rwa [hqueue, List.nil_append] at hsuffix
  refine ⟨fun hr side => ?_, ?_, hitems, fun hoff => ?_⟩
  · rw [← hledger.journals hr side, hjournal side, List.nil_append]
  · rw [hledger.sequences, hnext, hqueue, List.range_eq_range']
  · have hnone : s.enteredAll history = [] := hledger.off (by rw [hoff]; decide)
    rw [hnone] at hnext hitems
    exact ⟨hnone, congrArg₂ Queue.mk (List.suffix_nil.mp hitems) hnext⟩

/-- Both sides are observed while passes and flushes run. -/
theorem queue_exact_diamond :
    let s : Session :=
      { Sample.copying (.oneWay .left true) with options := { propagation := .oneWay .deferred } }
    let history : List Action :=
      [.observe .left, .synchronize, .observe .right,
        .mutate .left [.unlink ⟨1⟩ "next" ⟨3⟩],
      .edit .right [.set ⟨0⟩ "name" (.text "web")], .flush,
        .edit .left [.set ⟨0⟩ "name" (.text "net"), .remove ⟨2⟩],
      .synchronize, .mutate .left [.push ⟨0⟩ "nodes" ⟨3⟩]]
    (s.Quiet ∧ s.recordedAll .left history =
      [⟨⟨1⟩, .referenceRemoved "next" 0 ⟨3⟩⟩,
        ⟨⟨0⟩, .referenceRemoved "nodes" 1 ⟨2⟩⟩,
        ⟨⟨0⟩, .referenceAdded "nodes" 1 ⟨3⟩⟩] ∧
      s.enteredAll history = [⟨0, .left, ⟨⟨1⟩, .referenceRemoved "next" 0 ⟨3⟩⟩⟩,
        ⟨1, .right, ⟨⟨0⟩, .attributeSet "name" (.text "net") (.text "web")⟩⟩,
        ⟨2, .left, ⟨⟨0⟩, .referenceRemoved "nodes" 1 ⟨2⟩⟩⟩]) ∧
      ((s.enteredAll history).filter (·.side = .left)).map Pending.change ++
        ((s.performAll history).graphs.on .left).journal = s.recordedAll .left history := by
  intro s history
  have hquiet : s.Quiet := fun side => by cases side <;> rfl
  refine ⟨⟨hquiet, by decide +kernel⟩, ?_⟩
  exact (queue_exact (s := s) rfl rfl (Sample.built_copying (.oneWay .left true)) hquiet history).1
    rfl .left

end Session

end GraphSync
