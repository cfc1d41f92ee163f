import GraphSync.Proofs.Session.Flush

namespace GraphSync

/-- The journal of a graph speaks of elements that it has handed out. -/
theorem Graph.Built.before {g : Graph} (h : g.Built) : ∀ c ∈ g.journal, c.Before g.next := by
  induction h with
  | new name kind => exact fun c hc => by cases hc
  | @edit g h e ih =>
    obtain ⟨cs, hcs, _⟩ := Graph.logs_edit h.sound e
    intro c hc
    rw [hcs.journal] at hc
    rcases List.mem_append.mp hc with hc | hc
    · exact (ih c hc).mono (hcs.follows h.sound).next_le
    · split at hc
      · exact hcs.before h.sound c hc
      · cases hc
  | observe h on ih => exact ih
  | takeChanges h ih => exact fun c hc => by cases hc

namespace Session

variable {s : Session} {side t : Side} {c : Change}

/-- An edit through the session collects, edits the graph, and flushes or collects again. -/
theorem perform_edit (s : Session) (side : Side) (es : List Edit) :
    s.perform (.edit side es) =
      if s.options.propagation.isImmediate then
        ((s.collect.perform (.mutate side es)).perform .flush)
      else (s.collect.perform (.mutate side es)).perform .collect := by
  have ho : (s.collect.mutate side fun g => ((), g.editAll es)).2.options = s.options := rfl
  unfold perform Session.edit
  dsimp only
  rw [ho]
  split <;> rfl

/-- A property is kept by every action, if it is kept by those that are not made of others. -/
theorem perform_keep {P : Session → Prop} (a : Action) (h : P s)
    (collect : ∀ s : Session, P s → P s.collect)
    (mutate : ∀ (s : Session) side es, a = .edit side es ∨ a = .mutate side es → P s →
      P (s.perform (.mutate side es))) (observe : ∀ (s : Session) side on, P s →
        P { s with graphs := s.graphs.put side ((s.graphs.on side).observe on) })
    (synchronize : ∀ s : Session, P s → P s.synchronize.2)
    (flush : ∀ s : Session, P s → P s.flush.2) : P (s.perform a) := by
  cases a with
  | edit side es =>
    have hm := mutate _ side es (.inl rfl) (collect s h)
    rw [perform_edit]
    split
    · exact flush _ hm
    · exact collect _ hm
  | mutate side es => exact mutate s side es (.inr rfl) h
  | observe side =>
    unfold perform Session.observe
    dsimp only
    split
    · exact observe s side true h
    · exact h
  | stopObserving side => exact observe _ side false (collect s h)
  | collect => exact collect s h
  | synchronize => exact synchronize s h
  | flush => exact flush s h

theorem records_of_accepts {o : Options} (h : o.accepts side = true) :
    o.propagation.records = true := by
  unfold Options.accepts at h
  cases hp : o.propagation with
  | off => simp [hp, Propagation.accepts] at h
  | _ => rfl

/-- A graph that is written adds what it records. -/
theorem waits_put {g : Graph} {cs : List Change} (h : (s.graphs.on side).Logs cs g) :
    Waits { s with graphs := s.graphs.put side g } t c ↔
      s.Waits t c ∨ side = t ∧ s.options.propagation.records = true ∧
      (s.graphs.on side).observed = true ∧ c ∈ cs := by
  unfold Waits
  by_cases ht : side = t
  · subst ht
    rw [Sided.on_put_self, h.journal, List.mem_append]
    cases (s.graphs.on side).observed <;> simp [and_or_left, or_assoc]
  · have ht' : t ≠ side := fun e => ht e.symm
    simp [Sided.on_put_of_ne _ _ ht', ht]

/-- Neither does switching the recording on or off lose an edit, nor does a pass. -/
theorem waits_observe (on : Bool) :
    Waits { s with graphs := s.graphs.put side ((s.graphs.on side).observe on) } t c ↔
      s.Waits t c := by
  cases side <;> cases t <;> exact Iff.rfl

theorem waits_synchronize : s.synchronize.2.Waits t c ↔ s.Waits t c := by
  have hjournal : (s.synchronize.2.graphs.on t).journal = [] := journal_adopt s.collect s.pass.2 t
  have hqueue : s.synchronize.2.queue = s.collect.queue := rfl
  rw [← exists_mem_collect (s := s), Waits, hjournal, hqueue]
  exact or_iff_left fun h => by cases h.2

/-- Elements that waiting edits put into a role were handed out. -/
structure Timely (s : Session) : Prop where
  consistent : s.Consistent
  before : ∀ side c, s.Waits side c → c.Before (s.graphs.on side).next

theorem Timely.dated (h : s.Timely) :
    ∀ p ∈ s.collect.queue.items, p.change.Before (s.graphs.on p.side).next :=
  fun p hp => h.before p.side p.change (exists_mem_collect.mp ⟨p, hp, rfl, rfl⟩)

theorem Timely.observe (h : s.Timely) (side : Side) (on : Bool) :
    Timely { s with graphs := s.graphs.put side ((s.graphs.on side).observe on) } := by
  refine ⟨h.consistent.observe side on, fun t c hc => ?_⟩
  have hnext : ((s.graphs.put side ((s.graphs.on side).observe on)).on t).next =
      (s.graphs.on t).next := by
    cases side <;> cases t <;> rfl
  rw [hnext]
  exact h.before t c ((waits_observe on).mp hc)

theorem Timely.perform (h : s.Timely) (a : Action) : (s.perform a).Timely := by
  have later {u v : Session} (hu : u.Timely) (hv : v.Consistent) (hp : u.store.Preserves v.store)
      (hold : ∀ side c, v.Waits side c → u.Waits side c) : v.Timely :=
    ⟨hv, fun side c hc => (hu.before side c (hold side c hc)).mono (hp.follows side).next_le⟩
  refine perform_keep a h ?_ ?_ ?_ ?_ ?_
  · intro u hu
    exact later hu (hu.consistent.perform .collect).1 (preserves_collect hu.consistent) fun _ _ =>
      waits_collect.mp
  · intro u side es _ hu
    obtain ⟨cs, hcs⟩ := Graph.logs_editAll (hu.consistent.sound side) es
    have hf := hcs.follows (hu.consistent.sound side)
    refine ⟨(hu.consistent.perform (.mutate side es)).1, fun t c hc => ?_⟩
    rcases (waits_put hcs).mp hc with hc | ⟨rfl, _, _, hc⟩
    · exact (hu.before t c hc).mono (Act.put_follows hu.consistent.sound side hf t).next_le
    · have hbefore := hcs.before (hu.consistent.sound side) c hc
      simpa [Session.perform, Session.mutate] using hbefore
  · exact fun u side on hu => hu.observe side on
  · intro u hu
    exact later hu (hu.consistent.perform .synchronize).1 (preserves_synchronize hu.consistent).1
      fun _ _ => waits_synchronize.mp
  · intro u hu
    obtain ⟨hflushed, _⟩ := flush_spec hu.consistent hu.dated
    exact later hu (hu.consistent.perform .flush).1 hflushed.preserves fun _ _ => hflushed.waits

/-- In a session that clients can bring about, the edits that wait speak of elements that were
handed out. -/
theorem Reachable.timely (h : s.Reachable) : s.Timely := by
  obtain ⟨rules, rootRule, graphs, options, history, hg, rfl⟩ := h
  refine performAll_induction ⟨.empty _ fun side => (hg side).sound, ?_⟩
    (fun t a ht => ht.perform a) history
  intro side c hc
  rcases hc with ⟨p, hp, _⟩ | ⟨_, hc⟩
  · cases hp
  · exact (hg side).before c hc

end Session

end GraphSync
