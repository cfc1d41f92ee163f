import GraphSync.Proofs.Session.Synchronize
import GraphSync.Proofs.Walk.Rest

namespace GraphSync

namespace Session

open Walk

variable {s : Session}

def scheme (s : Session) : Scheme := ⟨s.rules, s.rootRule⟩

def store (s : Session) : Store := ⟨s.graphs, s.pairs⟩

/-- What the session has recorded agrees with its rules and its graphs. -/
def Consistent (s : Session) : Prop := s.scheme.Consistent s.graphs s.pairs

/-- On a side that passes or flushes follow a root may be met again under the root rule. -/
def LeadsBack (s : Session) : Prop := s.scheme.LeadsBack s.options.flushDirection s.store

/-- The session when an action starts to walk, if it does. -/
def started? (s : Session) : Action → Option Session
  | .edit side es =>
    if s.options.propagation.isImmediate then
      some (s.collect.mutate side fun g => ((), g.editAll es)).2 else none
  | .synchronize => some s
  | .flush => some s
  | _ => none

/-- Journals play no part in what a walk finds. -/
theorem leaves_congr {k : Scheme} {d : Direction} {graphs graphs' : Sided Graph}
    {t : Correspondences} (h : k.Consistent graphs t)
    (he : ∀ side, (graphs'.on side).elements = (graphs.on side).elements)
    (hn : ∀ side, (graphs'.on side).next = (graphs.on side).next) :
    k.Leaves d ⟨graphs, t⟩ ⟨graphs', t⟩ := by
  refine ⟨h.edited fun side => (h.sound side).congr _ (he side) (hn side), ?_,
    fun _ c hc _ => ⟨c, hc, rfl⟩⟩
  intro side hx
  refine hx.imp_left fun ⟨x, role, hm⟩ => ⟨x, role, ?_⟩
  simp only [Graph.members, Graph.element?, he] at hm
  exact hm

theorem alike_collect (s : Session) : s.walkState.Alike s.collect.walkState :=
  ⟨fun side => by cases side <;> rfl, rfl⟩

theorem alike_adopt (s : Session) (w : State) : w.Alike (s.adopt w).walkState :=
  ⟨fun side => by cases side <;> rfl, rfl⟩

/-- What a session owns after a pass is what the walk left, the journals apart. -/
theorem alike_synchronize (s : Session) : s.pass.2.Alike s.synchronize.2.walkState :=
  alike_adopt s.collect s.pass.2

theorem leaves_collect (h : s.Consistent) (d : Direction) :
    s.scheme.Leaves d s.store s.collect.store := by
  refine leaves_congr h ?_ ?_ <;> exact fun side => by cases side <;> rfl

theorem leaves_adopt {k : Scheme} {w : State} (h : k.Consistent w.graphs w.pairs) (d : Direction)
    (s : Session) : k.Leaves d w.store (s.adopt w).store := by
  refine leaves_congr h ?_ ?_ <;> exact fun side => by cases side <;> rfl

/-- A pass keeps the pair of the roots, and does not ask for another one. -/
theorem leaves_synchronize (h : s.Consistent) :
    s.scheme.Leaves s.options.direction s.store s.synchronize.2.store ∧
      (s.store.Anchored → ∀ conflict, s.synchronize.1 ≠ .error (.pairConflict conflict)) := by
  have hc := leaves_collect h s.options.direction
  obtain ⟨hok, herror⟩ :=
    wp_iff.mp (Scheme.leaves_syncRoots (w := s.collect.walkState) (d := s.options.direction)
    hc.consistent)
  have hpass : s.scheme.Leaves s.options.direction s.collect.store s.pass.2.store := by
    cases hp : s.pass.1 with
    | ok _ => exact hok () hp
    | error e => exact (herror e hp).1
  refine ⟨hc.trans (hpass.trans (leaves_adopt hpass.consistent _ _)), ?_⟩
  intro ha conflict he
  exact (herror _ (error_of_synchronize he)).2 ha conflict rfl

theorem mem_authorities_of_accepts {o : Options} {side : Side} (h : o.accepts side = true) :
    side ∈ o.flushDirection.authorities := by
  unfold Options.accepts Propagation.accepts at h
  unfold Options.flushDirection
  cases hp : o.propagation with
  | off => simp [hp] at h
  | oneWay timing =>
    simp only [hp, beq_iff_eq] at h
    simp only [Propagation.isTwoWay, h]
    cases o.direction <;> simp [Direction.source, Direction.authorities, Side.all]
  | twoWay timing => cases side <;> simp [Propagation.isTwoWay, Direction.authorities, Side.all]

theorem authorities_subset (o : Options) :
    o.direction.authorities ⊆ o.flushDirection.authorities := by
  unfold Options.flushDirection
  split
  · intro side _
    cases side <;> simp [Direction.authorities, Side.all]
  · exact fun _ h => h

theorem carries_drain {k : Scheme} {o : Options} (items : List Pending) {f : Flush}
    (h : k.Consistent f.walk.graphs f.walk.pairs) :
    k.Carries o.flushDirection f.walk (Flush.drain k.rules o items f).2.walk := by
  refine drain_keep (I := k.Carries o.flushDirection f.walk) (fun p _ ha w hw => ?_)
    ⟨.refl h, id⟩
  refine exec_of_wp
    (wp_mono (Scheme.carries_carry hw.1.consistent (mem_authorities_of_accepts ha) p.change) ?_ ?_)
  · exact fun _ _ hc => ⟨hw.1.trans hc.1, hc.2 ∘ hw.2⟩
  · exact fun _ _ hc => ⟨hw.1.trans hc.1, hc.2 ∘ hw.2⟩

theorem leaves_flush (h : s.Consistent) :
    s.scheme.Leaves s.options.flushDirection s.store s.flush.2.store := by
  have hc := leaves_collect h s.options.flushDirection
  unfold Session.flush
  dsimp only
  split
  · exact hc
  · have hd := carries_drain (k := s.scheme) (o := s.options) s.collect.queue.items
      (f := { queue := s.collect.queue, walk := s.collect.walkState }) hc.consistent
    have hsp : s.collect.walkState.Spares := fun p hp => by cases hp
    have hr :=
      Scheme.leaves_releaseDeleted (d := s.options.flushDirection) hd.1.consistent (hd.2 hsp)
    exact hc.trans (hd.1.trans (hr.trans (leaves_adopt hr.consistent _ s.collect)))

theorem Consistent.mutate (h : s.Consistent) (side : Side) (es : List Edit) :
    (s.mutate side fun g => ((), g.editAll es)).2.Consistent :=
  h.put ((h.sound side).editAll es)

theorem Consistent.observe (h : s.Consistent) (side : Side) (on : Bool) :
    Consistent { s with graphs := s.graphs.put side ((s.graphs.on side).observe on) } :=
  h.put ((h.sound side).congr _ rfl rfl)

@[simp] theorem scheme_perform (s : Session) (a : Action) : (s.perform a).scheme = s.scheme := by
  obtain ⟨hr, hn, _⟩ := s.perform_settings a
  rw [scheme, scheme, hr, hn]

/-- An action keeps the record consistent, and in it the pair of the roots. -/
theorem Consistent.perform (h : s.Consistent) (a : Action) : (s.perform a).Consistent ∧
    ((∀ t, s.started? a = some t → ¬ t.LeadsBack) → ∀ c ∈ s.pairs.entries,
      c.isAnchor = true → ∃ c' ∈ (s.perform a).pairs.entries, c'.core = c.core) := by
  have quiet {t : Session} (ht : t.Consistent) (hp : t.pairs = s.pairs) {P : Prop} :
      t.Consistent ∧
      (P → ∀ c ∈ s.pairs.entries, c.isAnchor = true → ∃ c' ∈ t.pairs.entries,
        c'.core = c.core) :=
    ⟨ht, fun _ c hc _ => ⟨c, hp ▸ hc, rfl⟩⟩
  have hcollect : s.collect.Consistent := (leaves_collect h s.options.direction).consistent
  cases a with
  | edit side es =>
    let m := (s.collect.mutate side fun g => ((), g.editAll es)).2
    have hm : m.Consistent := hcollect.mutate side es
    cases hi : s.options.propagation.isImmediate with
    | true =>
      have hp : s.perform (.edit side es) = m.flush.2 := by
        have hi' : m.options.propagation.isImmediate = true := hi
        simp only [Session.perform, Session.edit]
        rw [if_pos hi']
      have hf := leaves_flush hm
      rw [hp]
      refine ⟨?_, fun hl c hc => hf.anchors (hl m ?_) c hc⟩
      · rw [Consistent, ← hp, scheme_perform, hp]
        exact hf.consistent
      · rw [started?, if_pos hi]
    | false =>
      have hp : s.perform (.edit side es) = m.collect := by
        have hi' : ¬ m.options.propagation.isImmediate = true := by
          rw [Bool.not_eq_true]
          exact hi
        simp only [Session.perform, Session.edit]
        rw [if_neg hi']
      rw [hp]
      exact quiet (t := m.collect) (leaves_collect hm s.options.direction).consistent rfl
  | mutate side es => exact quiet (h.mutate side es) rfl
  | observe side =>
    unfold Session.perform Session.observe
    dsimp only
    split
    · exact quiet (h.observe side true) rfl
    · exact quiet h rfl
  | stopObserving side => exact quiet (hcollect.observe side false) rfl
  | collect => exact quiet hcollect rfl
  | synchronize =>
    have hs := (leaves_synchronize h).1
    refine ⟨hs.consistent, fun hl c hc => hs.anchors ?_ c hc⟩
    exact fun ⟨side, hside, hx⟩ => hl s rfl ⟨side, authorities_subset _ hside, hx⟩
  | flush =>
    have hf := leaves_flush h
    refine ⟨?_, fun hl c hc => hf.anchors (hl s rfl) c hc⟩
    rw [Consistent, scheme_perform]
    exact hf.consistent

/-- The record of a session agrees with its rules and its graphs, whatever was done to it. -/
theorem Reachable.consistent (h : s.Reachable) : s.Consistent := by
  obtain ⟨rules, rootRule, graphs, options, history, hg, rfl⟩ := h
  refine performAll_induction ?_ (fun t a ht => (ht.perform a).1) history
  exact .empty _ fun side => (hg side).sound

theorem Directed.scheme_eq {k : OneWay} (h : s.Directed k) : s.scheme = k.scheme := by
  rw [scheme, h.rules, h.rootRule]
  rfl

theorem consistent_walkState {k : OneWay} (hd : s.Directed k) (hs : s.Consistent) :
    k.scheme.Consistent s.collect.walkState.graphs s.collect.walkState.pairs := by
  rw [← hd.scheme_eq]
  exact (leaves_collect hs s.options.direction).consistent

end Session

end GraphSync
