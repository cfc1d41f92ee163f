import GraphSync.Proofs.Session.Ledger

namespace GraphSync.Session

open Walk

variable {s : Session}

/-- What a flush has taken off the queue has a smaller number than anything that waits later. -/
theorem taken_before (h : s.Reachable) {taken : List Pending}
    (ht : s.collect.queue.items = taken ++ s.flush.2.queue.items)
    (hn : s.flush.2.queue.next = s.collect.queue.next) (history : List Action) {p q : Pending}
    (hp : p ∈ taken) (hq : q ∈ (s.flush.2.performAll history).collect.queue.items) :
    p.sequence < q.sequence := by
  have hordered : s.collect.queue.Ordered := (h.performAll [.collect]).ordered
  have hflushed : s.flush.2.Reachable := h.performAll [.flush]
  have hledger := (ledger_performAll hflushed.consistent history).trans (ledger_collect _)
  rcases hledger.later hq with hq | hq
  · have hsorted := hordered.sorted
    rw [ht] at hsorted
    exact (List.pairwise_append.mp hsorted).2.2 p hp q hq
  · rw [hn] at hq
    exact Nat.lt_of_lt_of_le (hordered.bounded p (ht ▸ List.mem_append_left _ hp)) hq

/-- **A flush consumes the queue once and in order.** One that succeeds has worked off all that
waited: each edit was carried over, skipped or in conflict, an edit of a side that is not carried
over was skipped, and the report counts them. One that fails has worked off the edits before the one
that failed; that one is gone, those behind it are still queued as they were. In either case nothing
that was taken off the queue waits ever again, and the pairs of deleted elements that were taken out
of a role are gone. -/
theorem flush_consumes (h : s.Reachable) :
    (∀ report, s.flush.1 = .ok report → ∃ log w,
      Works s.rules s.options s.collect.walkState log w ∧
      log.map Prod.fst = s.collect.queue.items ∧ s.flush.2 = s.afterFlush w [] ∧
      (∀ x ∈ log, ¬ s.options.accepts x.1.side = true → x.2 = .skipped) ∧
      report.applied = log.countP (·.2 = .applied) ∧
      report.skipped = log.countP (·.2 = .skipped) ∧ report.applied + report.skipped +
        log.countP (fun x => s.options.accepts x.1.side ∧ x.2 = .conflicted) =
        s.collect.queue.items.length) ∧
    (∀ e, s.flush.1 = .error e → ∃ log p rest w,
      Stops s.rules s.options s.collect.walkState log p e w ∧
      s.collect.queue.items = log.map Prod.fst ++ p :: rest ∧ s.flush.2 = s.afterFlush w rest) ∧
    ∃ taken, s.collect.queue.items = taken ++ s.flush.2.queue.items ∧
      (∀ history, ∀ p ∈ taken, ∀ q ∈ (s.flush.2.performAll history).collect.queue.items,
        p.sequence < q.sequence) ∧
      ∀ p ∈ taken, s.options.accepts p.side = true → ∀ role index target,
        p.change.effect = .referenceRemoved role index target →
        (s.flush.2.graphs.on p.side).contains target = false →
        ∀ c ∈ s.flush.2.pairs.entries, c.element p.side ≠ target := by
  have ht := h.timely
  obtain ⟨taken, htaken, hreleased⟩ := (flush_spec ht.consistent ht.dated).1.done
  have hnext : s.flush.2.queue.next = s.collect.queue.next := by
    rcases s.flush_cases with ⟨_, _, _, _, he⟩ | ⟨_, _, _, _, _, _, _, he⟩ <;> rw [he] <;> rfl
  refine ⟨fun report hr => ?_, fun e hr => stops_of_flush hr, taken, htaken,
    fun history p hp q hq => taken_before h htaken hnext history hp hq, hreleased⟩
  obtain ⟨log, w, hworks, hlog, happlied, hskipped, he⟩ := works_of_flush hr
  refine ⟨log, w, hworks, hlog, he, fun x hx hrejected => hworks.skipped hx hrejected, happlied,
    hskipped, ?_⟩
  rw [← hlog, List.length_map, hworks.length_eq, happlied, hskipped]

/-- Edits of the right side are skipped, a node was deleted, and the next edit fails: the last one
stays queued, and is carried over by the flush after that. -/
theorem flush_consumes_nodes :
    let s := Sample.carrying.performAll [.observe .right, .mutate .right [.remove ⟨1⟩],
      .edit .left
        [.remove ⟨2⟩, .set ⟨1⟩ "name" (.text "c"), .set ⟨0⟩ "name" (.text "web")]]
    (s.Reachable ∧ s.flush.1 = .error (.graph (.unknownElement ⟨1⟩)) ∧
      s.flush.2.queue.items =
        [⟨3, .left, ⟨⟨0⟩, .attributeSet "name" (.text "net") (.text "web")⟩⟩] ∧
      s.flush.2.flush.1 = .ok { applied := 1 }) ∧
    (∃ log p rest w,
      Stops s.rules s.options s.collect.walkState log p (.graph (.unknownElement ⟨1⟩)) w ∧
      s.collect.queue.items = log.map Prod.fst ++ p :: rest ∧ s.flush.2 = s.afterFlush w rest) ∧
    ∃ log w, Works s.rules s.options s.flush.2.collect.walkState log w ∧
      log.map Prod.fst = s.flush.2.collect.queue.items ∧ log.countP (·.2 = .applied) = 1 := by
  intro s
  have hs : s.Reachable := Sample.reachable_carrying.performAll _
  obtain ⟨hfails, hleft, hagain⟩ : s.flush.1 = .error (.graph (.unknownElement ⟨1⟩)) ∧
      s.flush.2.queue.items =
        [⟨3, .left, ⟨⟨0⟩, .attributeSet "name" (.text "net") (.text "web")⟩⟩] ∧
      s.flush.2.flush.1 = .ok { applied := 1 } := by decide +kernel
  clear_value s
  have ht : s.flush.2.Reachable := hs.performAll [.flush]
  obtain ⟨hrules, _, hoptions⟩ : s.flush.2.rules = s.rules ∧ _ ∧
      s.flush.2.options = s.options :=
    s.perform_settings .flush
  refine ⟨⟨hs, hfails, hleft, hagain⟩, (flush_consumes hs).2.1 _ hfails, ?_⟩
  obtain ⟨log, w, hworks, hlog, _, _, happlied, _⟩ := (flush_consumes ht).1 _ hagain
  rw [hrules, hoptions] at hworks
  exact ⟨log, w, hworks, hlog, happlied.symm⟩

end GraphSync.Session
