import GraphSync.Proofs.Session.Drain

namespace GraphSync

open Walk

namespace OneWay

variable {k : OneWay} {w : State}

/-- However carrying an edit of the source side over ends, the record is consistent and the source
side as it was. -/
theorem source_carry (hk : k.scheme.Consistent w.graphs w.pairs) (c : Change) :
    let w' := (exec (carry k.rules k.direction k.source c) w).2
    k.scheme.Consistent w'.graphs w'.pairs ∧ w'.graphs.on k.source = w.graphs.on k.source := by
  let w₀ : State := { w with visited := [] }
  have hk₀ : k.scheme.Consistent w₀.graphs w₀.pairs := hk
  have hauth : k.source ∈ k.direction.authorities := List.mem_singleton_self _
  have went {w' : State} (hw : k.scheme.Went k.direction (fun _ => True) w₀ w') :
      k.scheme.Consistent w'.graphs w'.pairs ∧ w'.graphs.on k.source = w.graphs.on k.source :=
    ⟨hw.consistent, hw.acts.source⟩
  refine exec_of_wp (I := fun w' => k.scheme.Consistent w'.graphs w'.pairs ∧
    w'.graphs.on k.source = w.graphs.on k.source)
    (wp_carry_traced (k := k.scheme) hk hauth (fun _ hw _ => went hw)
      (fun _ _ hw _ _ => went hw) ?_)
  rintro _ _ target _ w' ⟨w₁, deleted, hf, _, rfl, _⟩
  have hsource : w₁.graphs.on k.source = w₀.graphs.on k.source := source_freed hf
  have hk₁ : k.scheme.Consistent w₁.graphs w₁.pairs := hk₀.freed hf
  exact ⟨hk₁, hsource⟩

/-- A pass drops pairs, whose elements leave roles of the other side at most, and comes by writes to
the other side. -/
theorem source_syncRoots (hk : k.scheme.Consistent w.graphs w.pairs) :
    wp (syncRoots k.rules k.direction k.rootRule)
      (fun _ w' => w'.graphs.on k.source = w.graphs.on k.source)
      (fun _ w' => w'.graphs.on k.source = w.graphs.on k.source) w := by
  refine Scheme.wp_syncRoots_paired (k := k.scheme) hk (fun _ _ => rfl) fun r c w₁ hp => ?_
  refine Scheme.wp_run_purged (k := k.scheme) hp.consistent hp.entry hp.anchor hp.rule
    fun w₂ hpurged => ?_
  have hsource : w₂.graphs.on k.source = w.graphs.on k.source :=
    (source_freed hpurged.frees).trans (hp.graphs ▸ rfl)
  exact wp_mono hpurged.traces (fun _ _ hw => Eq.trans hw.acts.source hsource)
    fun _ _ hw => Eq.trans hw.1.acts.source hsource

end OneWay

namespace Session

variable {s : Session} {k : OneWay} {source : Side} {forced : Bool}

/-- A pass leaves the source side as it is, but for the journal. -/
theorem source_synchronize (h : s.Directed k) (hs : s.Consistent) :
    s.synchronize.2.graphs.on k.source = (s.graphs.on k.source).takeChanges.2 := by
  have hpass : s.pass.2.graphs.on k.source = s.collect.graphs.on k.source := by
    rw [pass, h.rules, h.rootRule, h.direction]
    exact exec_of_wp (I := fun w' => w'.graphs.on k.source = s.collect.graphs.on k.source)
      (OneWay.source_syncRoots (consistent_walkState h hs))
  refine (adopt_graphs s.collect s.pass.2 k.source).trans ?_
  rw [hpass, collect_graphs]
  rfl

/-- A flush leaves the source side as it is, but for the journal. -/
theorem source_flush (h : s.Follows k) (hs : s.Consistent) :
    s.flush.2.graphs.on k.source = (s.graphs.on k.source).takeChanges.2 := by
  by_cases hempty : s.collect.queue.items = []
  · rw [flush_of_nil hempty, collect_graphs]
  have hdrained : k.scheme.Consistent s.drained.2.walk.graphs s.drained.2.walk.pairs ∧
      s.drained.2.walk.graphs.on k.source = s.collect.graphs.on k.source :=
    h.drain_keep (I := fun w => k.scheme.Consistent w.graphs w.pairs ∧
      w.graphs.on k.source = s.collect.graphs.on k.source)
      (fun c _ hw => ⟨(OneWay.source_carry hw.1 c).1, (OneWay.source_carry hw.1 c).2.trans hw.2⟩)
      s.collect.queue.items ⟨consistent_walkState h.toDirected hs, rfl⟩
  rw [flush_of_ne_nil hempty]
  refine (adopt_graphs s.collect _ _).trans ?_
  rw [(releaseDeleted_spec _).1, hdrained.2, collect_graphs]
  rfl

/-- Working off edits of the source side keeps the record consistent and leaves that side as it
is. -/
theorem Works.source_kept (h : s.Follows k) {w w' : State} {log : List (Pending × ChangeOutcome)}
    (hw : Works s.rules s.options w log w') (hk : k.scheme.Consistent w.graphs w.pairs) :
    k.scheme.Consistent w'.graphs w'.pairs ∧ w'.graphs.on k.source = w.graphs.on k.source := by
  refine hw.keep (I := fun w' => k.scheme.Consistent w'.graphs w'.pairs ∧
    w'.graphs.on k.source = w.graphs.on k.source) (fun x _ ha w₁ hw₁ => ?_) ⟨hk, rfl⟩
  rw [h.flushDirection, h.rules, h.eq_source ha]
  have hcarried := OneWay.source_carry hw₁.1 x.1.change
  exact ⟨hcarried.1, hcarried.2.trans hw₁.2⟩

theorem members_source_flush (h : s.Follows k) (hs : s.Consistent) :
    (s.flush.2.graphs.on k.source).members = (s.graphs.on k.source).members := by
  rw [source_flush h hs]
  rfl

/-- Of the source side of a session that does not carry edits both ways, neither a pass nor a flush
writes anything, also where it fails: all that is taken from that graph is its journal. -/
theorem source_never_written (hs : s.Reachable) (hd : s.options.direction = .oneWay source forced)
    (ho : s.options.propagation.isTwoWay = false) :
    s.synchronize.2.graphs.on source = (s.graphs.on source).takeChanges.2 ∧
      s.flush.2.graphs.on source = (s.graphs.on source).takeChanges.2 := by
  have hf := hs.follows hd ho
  exact ⟨source_synchronize hf.toDirected hs.consistent, source_flush hf hs.consistent⟩

/-- Nodes were deleted on both sides, and what was edited on either of them waits: a pass makes the
copy that is gone again, a flush fails for want of it. -/
theorem source_never_written_torn :
    Sample.torn.Reachable ∧ (∀ side, ∃ p ∈ Sample.torn.queue.items, p.side = side) ∧
      (Sample.torn.synchronize.1.map (·.elementsCreated)).toOption = some 1 ∧
      Sample.torn.flush.1.toOption.isNone = true ∧
      Sample.torn.synchronize.2.graphs.on .left = (Sample.torn.graphs.on .left).takeChanges.2 ∧
      Sample.torn.flush.2.graphs.on .left = (Sample.torn.graphs.on .left).takeChanges.2 := by
  have hs : Sample.torn.Reachable := Sample.reachable_carrying.performAll _
  have ho : Sample.torn.options.direction = .oneWay .left true ∧
      Sample.torn.options.propagation.isTwoWay = false := by
    decide +kernel
  refine ⟨hs, fun side => ?_, by decide +kernel, by decide +kernel,
    source_never_written hs ho.1 ho.2⟩
  cases side <;> decide +kernel

end Session

end GraphSync
