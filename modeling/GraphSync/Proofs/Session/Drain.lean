import GraphSync.Proofs.Session.Flush

namespace GraphSync.Session

open Walk

variable {rules : RuleSet} {o : Options} {w w' : State} {log : List (Pending × ChangeOutcome)}

/-- Edits are worked off, oldest first, and none of them fails. Nothing is done about an edit of a
side that is not carried over. -/
inductive Works (rules : RuleSet) (o : Options) :
    State → List (Pending × ChangeOutcome) → State → Prop where
  | nil (w : State) : Works rules o w [] w
  | left {w w' : State} {p : Pending} {log : List (Pending × ChangeOutcome)}
    (rejected : ¬ o.accepts p.side = true) (rest : Works rules o w log w') :
    Works rules o w ((p, .skipped) :: log) w'
  | carried {w w₁ w' : State} {p : Pending} {outcome : ChangeOutcome}
    {log : List (Pending × ChangeOutcome)} (accepted : o.accepts p.side = true)
    (run : exec (carry rules o.flushDirection p.side p.change) w = (.ok outcome, w₁))
    (rest : Works rules o w₁ log w') : Works rules o w ((p, outcome) :: log) w'

namespace Works

/-- What is not carried over is skipped. -/
theorem skipped (h : Works rules o w log w') {p : Pending} {outcome : ChangeOutcome}
    (hp : (p, outcome) ∈ log) (hr : ¬ o.accepts p.side = true) : outcome = .skipped := by
  induction h with
  | nil w => cases hp
  | left rejected rest ih =>
    rcases List.mem_cons.mp hp with he | hp
    · exact (Prod.mk.inj he).2
    · exact ih hp
  | carried accepted run rest ih =>
    rcases List.mem_cons.mp hp with he | hp
    · exact absurd ((Prod.mk.inj he).1 ▸ accepted) hr
    · exact ih hp

/-- What every edit that is carried over keeps. -/
theorem keep {I : State → Prop} (h : Works rules o w log w')
    (step : ∀ x ∈ log, o.accepts x.1.side = true → ∀ w, I w →
      I (exec (carry rules o.flushDirection x.1.side x.1.change) w).2) (hw : I w) : I w' := by
  induction h with
  | nil w => exact hw
  | left rejected rest ih => exact ih (fun x hx => step x (List.mem_cons_of_mem _ hx)) hw
  | carried accepted run rest ih =>
    refine ih (fun x hx => step x (List.mem_cons_of_mem _ hx)) ?_
    have hstep := step _ List.mem_cons_self accepted _ hw
    rwa [run] at hstep

end Works

/-- The outcomes, counted. -/
def Flush.tally (r : FlushReport) (log : List (Pending × ChangeOutcome)) : FlushReport :=
  log.foldl (fun r x => count r x.2) r

theorem Flush.tally_eq (r : FlushReport) (log : List (Pending × ChangeOutcome)) : tally r log =
    { applied := r.applied + log.countP (·.2 = .applied)
      skipped := r.skipped + log.countP (·.2 = .skipped)
      conflicts := r.conflicts } := by
  induction log generalizing r with
  | nil => rfl
  | cons x log ih =>
    have hcons : tally r (x :: log) = tally (count r x.2) log := rfl
    obtain ⟨p, outcome⟩ := x
    rw [hcons, ih]
    cases outcome <;> simp [count, Nat.add_assoc, Nat.add_comm 1]

/-- An outcome is one of three; one that is not carried over does not count as a conflict. -/
theorem Works.length_eq (h : Works rules o w log w') :
    log.length = log.countP (·.2 = .applied) + log.countP (·.2 = .skipped) +
      log.countP (fun x => o.accepts x.1.side ∧ x.2 = .conflicted) := by
  induction h with
  | nil w => rfl
  | left rejected rest ih =>
    simp only [List.length_cons, ih, List.countP_cons]
    simp
    omega
  | @carried _ _ _ p outcome _ accepted run rest ih =>
    simp only [List.length_cons, ih, List.countP_cons]
    cases outcome <;> simp [accepted] <;> omega

/-- Edits are worked off up to one that fails. -/
structure Stops (rules : RuleSet) (o : Options) (w : State) (log : List (Pending × ChangeOutcome))
    (p : Pending) (e : Error) (w' : State) : Prop where
  accepted : o.accepts p.side = true
  run : ∃ w₁, Works rules o w log w₁ ∧
    exec (carry rules o.flushDirection p.side p.change) w₁ = (.error e, w')

theorem step_of_ok {p : Pending} {f : Flush} {outcome : ChangeOutcome}
    (ha : o.accepts p.side = true)
    (hx : exec (carry rules o.flushDirection p.side p.change) f.walk = (.ok outcome, w)) :
    Flush.step rules o f p =
      (.ok (), { f with walk := w, report := Flush.count f.report outcome }) := by
  have hrun : (carry rules o.flushDirection p.side p.change).run.run f.walk = (.ok outcome, w) := hx
  simp only [Flush.step, if_pos ha, hrun]
  rfl

theorem step_of_error {p : Pending} {f : Flush} {e : Error} (ha : o.accepts p.side = true)
    (hx : exec (carry rules o.flushDirection p.side p.change) f.walk = (.error e, w)) :
    Flush.step rules o f p = (.error e, { f with walk := w }) := by
  have hrun : (carry rules o.flushDirection p.side p.change).run.run f.walk = (.error e, w) := hx
  simp only [Flush.step, if_pos ha, hrun]
  rfl

/-- All items are worked off, or those before the first one that fails, which is gone as well. -/
theorem drain_cases (items : List Pending) (f : Flush) (hq : f.queue.items = items) :
    (∃ log w, Works rules o f.walk log w ∧ log.map Prod.fst = items ∧
      Flush.drain rules o items f =
        (.ok (), ⟨{ f.queue with items := [] }, w, Flush.tally f.report log⟩)) ∨
    ∃ log p rest e w, Stops rules o f.walk log p e w ∧ items = log.map Prod.fst ++ p :: rest ∧
      Flush.drain rules o items f =
        (.error e, ⟨{ f.queue with items := rest }, w, Flush.tally f.report log⟩) := by
  induction items generalizing f with
  | nil =>
    obtain ⟨⟨_, next⟩, walk, report⟩ := f
    obtain rfl := hq
    exact .inl ⟨[], walk, .nil _, rfl, rfl⟩
  | cons p rest ih =>
    let popped : Flush := { f with queue := { f.queue with items := rest } }
    have next {c : ChangeOutcome} {w₁ : State}
        (hstep : Flush.step rules o popped p =
          (.ok (), { popped with walk := w₁, report := Flush.count f.report c }))
        (hcons : ∀ log w', Works rules o w₁ log w' →
          Works rules o f.walk ((p, c) :: log) w') :
        (∃ log w, Works rules o f.walk log w ∧ log.map Prod.fst = p :: rest ∧
          Flush.drain rules o (p :: rest) f =
            (.ok (), ⟨{ f.queue with items := [] }, w, Flush.tally f.report log⟩)) ∨
        ∃ log q later e w, Stops rules o f.walk log q e w ∧
          p :: rest = log.map Prod.fst ++ q :: later ∧ Flush.drain rules o (p :: rest) f =
            (.error e, ⟨{ f.queue with items := later }, w, Flush.tally f.report log⟩) := by
      have hdrain : Flush.drain rules o (p :: rest) f =
          Flush.drain rules o rest
            { popped with walk := w₁, report := Flush.count f.report c } := by
        rw [Flush.drain, hstep]
      rw [hdrain]
      rcases ih { popped with walk := w₁, report := Flush.count f.report c } rfl with
        ⟨log, w', hworks, hlog, he⟩ | ⟨log, q, later, e, w', hstops, hlog, he⟩
      · exact .inl ⟨(p, c) :: log, w', hcons log w' hworks, by rw [List.map_cons, hlog], he⟩
      · obtain ⟨w₂, hworks, hrun⟩ := hstops.run
        exact .inr ⟨(p, c) :: log, q, later, e, w',
          ⟨hstops.accepted, w₂, hcons log w₂ hworks, hrun⟩, by simp [hlog], he⟩
    by_cases ha : o.accepts p.side = true
    · cases hx : exec (carry rules o.flushDirection p.side p.change) f.walk with | mk outcome w₁
      cases outcome with
      | ok c => exact next (step_of_ok ha hx) fun log w' hworks => .carried ha hx hworks
      | error e =>
        have hstep : Flush.step rules o popped p = (.error e, { popped with walk := w₁ }) :=
          step_of_error ha hx
        refine .inr ⟨[], p, rest, e, w₁, ⟨ha, f.walk, .nil _, hx⟩, rfl, ?_⟩
        rw [Flush.drain, hstep]
        rfl
    · exact next (step_of_not_accepts ha popped) fun log w' hworks => .left ha hworks

variable {s : Session}

theorem adopt_walkState (h : s.Quiet) : s.adopt s.walkState = s := by
  have hgraphs : s.graphs.map (fun g => g.takeChanges.2) = s.graphs :=
    Sided.ext (congrArg Prod.snd (h.takeChanges .left)) (congrArg Prod.snd (h.takeChanges .right))
  rw [adopt, walkState, hgraphs]

theorem quiet_collect (s : Session) : s.collect.Quiet := by
  intro side
  rw [collect_graphs]
  rfl

/-- What a flush leaves behind, when its walk ended in `w` and these items stay queued. -/
def afterFlush (s : Session) (w : State) (rest : List Pending) : Session :=
  { s.collect.adopt (releaseDeleted w) with queue := { s.collect.queue with items := rest } }

/-- A flush works off everything that waits, or stops at an edit that fails. -/
theorem flush_cases (s : Session) :
    (∃ log w, Works s.rules s.options s.collect.walkState log w ∧
      log.map Prod.fst = s.collect.queue.items ∧ s.flush = (.ok {
        applied := log.countP (·.2 = .applied)
        skipped := log.countP (·.2 = .skipped)
        conflicts := (releaseDeleted w).report.conflicts }, s.afterFlush w [])) ∨
    ∃ log p rest e w, Stops s.rules s.options s.collect.walkState log p e w ∧
      s.collect.queue.items = log.map Prod.fst ++ p :: rest ∧
      s.flush = (.error e, s.afterFlush w rest) := by
  by_cases hempty : s.collect.queue.items = []
  · refine .inl ⟨[], s.collect.walkState, .nil _, hempty.symm, ?_⟩
    have hsame : s.afterFlush s.collect.walkState [] = s.collect := by
      have hadopt : s.collect.adopt (releaseDeleted s.collect.walkState) = s.collect :=
        adopt_walkState (quiet_collect s)
      rw [afterFlush, hadopt, ← hempty]
    rw [flush_of_nil hempty, hsame]
    rfl
  · rw [flush_of_ne_nil hempty, drained]
    rcases drain_cases (o := s.options) s.collect.queue.items
        { queue := s.collect.queue, walk := s.collect.walkState } rfl with
      ⟨log, w, hworks, hlog, he⟩ | ⟨log, p, rest, e, w, hstops, hitems, he⟩
    · refine .inl ⟨log, w, hworks, hlog, ?_⟩
      rw [he, Flush.tally_eq]
      simp [afterFlush, Except.map]
    · refine .inr ⟨log, p, rest, e, w, hstops, hitems, ?_⟩
      rw [he]
      rfl

/-- A flush that succeeds has worked off everything, and reports what came of it. -/
theorem works_of_flush {report : FlushReport} (h : s.flush.1 = .ok report) :
    ∃ log w, Works s.rules s.options s.collect.walkState log w ∧
      log.map Prod.fst = s.collect.queue.items ∧
      report.applied = log.countP (·.2 = .applied) ∧
      report.skipped = log.countP (·.2 = .skipped) ∧ s.flush.2 = s.afterFlush w [] := by
  rcases s.flush_cases with ⟨log, w, hworks, hlog, he⟩ | ⟨_, _, _, _, _, _, _, he⟩
  · rw [he] at h ⊢
    cases h
    exact ⟨log, w, hworks, hlog, rfl, rfl, rfl⟩
  · rw [he] at h
    cases h

theorem stops_of_flush {e : Error} (h : s.flush.1 = .error e) :
    ∃ log p rest w, Stops s.rules s.options s.collect.walkState log p e w ∧
      s.collect.queue.items = log.map Prod.fst ++ p :: rest ∧
      s.flush.2 = s.afterFlush w rest := by
  rcases s.flush_cases with ⟨_, _, _, _, he⟩ | ⟨log, p, rest, e', w, hstops, hitems, he⟩
  · rw [he] at h
    cases h
  · rw [he] at h ⊢
    cases h
    exact ⟨log, p, rest, w, hstops, hitems, rfl⟩

end GraphSync.Session
