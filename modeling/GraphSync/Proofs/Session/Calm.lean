import GraphSync.Proofs.Session.Typed
import GraphSync.Proofs.Walk.Calm

namespace GraphSync

open Walk

def Edit.Sets (e : Edit) (x : ElementId) (name : AttributeName) : Prop := ∃ v, e = .set x name v

instance (e : Edit) (x : ElementId) (name : AttributeName) : Decidable (e.Sets x name) :=
  match e with
  | .set y n v => decidable_of_iff (y = x ∧ n = name) (by simp [Edit.Sets])
  | .add _ | .push .. | .insert .. | .unlink .. | .remove _ => .isFalse (by simp [Edit.Sets])

theorem Graph.Sound.reading_editAll {g : Graph} (h : g.Sound) {x : ElementId} {name : AttributeName}
    {es : List Edit} (hs : ∀ e ∈ es, ¬ e.Sets x name) (hi : x.index < g.next)
    (hx : (g.editAll es).contains x = true) : (g.editAll es).reading x name = g.reading x name := by
  induction es generalizing g with
  | nil => rfl
  | cons e es ih =>
    have hf := h.edit e
    have hlive : (g.edit e).contains x = true := by
      obtain ⟨kind, hkind⟩ := Graph.contains_iff_kind.mp hx
      have hlater :=
        (hf.sound.editAll es).kind_of_old x kind (Nat.lt_of_lt_of_le hi hf.next_le) hkind
      exact Graph.contains_iff_kind.mpr ⟨kind, hlater⟩
    have hrest := ih hf.sound (fun e' he' => hs e' (List.mem_cons_of_mem e he'))
      (Nat.lt_of_lt_of_le hi hf.next_le) hx
    exact hrest.trans (h.reading_edit (fun v he => hs e List.mem_cons_self ⟨v, he⟩) hlive)

/-- The edits that an action brings to a side. -/
def Session.Action.edits (side : Side) : Session.Action → List Edit
  | .edit t es => if t = side then es else []
  | .mutate t es => if t = side then es else []
  | _ => []

/-- Nobody sets an attribute of the pair's element on that side that its rule binds. -/
def Correspondence.Untouched (c : Correspondence) (rules : RuleSet) (side : Side)
    (history : List Session.Action) : Prop :=
  ∀ r ∈ rules.rule? c.rule, ∀ b ∈ r.bindings, ∀ a ∈ history, ∀ e ∈ a.edits side,
    ¬ e.Sets (c.element side) (b.attributes.on side)

instance (c : Correspondence) (rules : RuleSet) (side : Side) (history : List Session.Action) :
    Decidable (c.Untouched rules side history) :=
  inferInstanceAs
    (Decidable (∀ r ∈ rules.rule? c.rule, ∀ b ∈ r.bindings, ∀ a ∈ history, ∀ e ∈ a.edits side, _))

namespace Session

variable {s : Session} {side : Side} {c₀ : Correspondence}

/-- Journals play no part in it. -/
theorem calm_congr {k : Scheme} {graphs graphs' : Sided Graph} {t : Correspondences}
    (hk : k.Consistent graphs t)
    (he : ∀ side, (graphs'.on side).elements = (graphs.on side).elements)
    (hn : ∀ side, (graphs'.on side).next = (graphs.on side).next)
    (hc : k.Calm c₀ side ⟨graphs, t⟩) : k.Calm c₀ side ⟨graphs', t⟩ := by
  refine hc.of_reading ((hk.sound side).congr _ (he side) (hn side)) (Nat.le_refl _) (fun _ => .inl)
    fun _ _ _ _ _ => ?_
  simp only [Graph.reading, Graph.element?, he]

theorem calm_collect (h : s.Consistent) (hc : s.scheme.Calm c₀ side s.store) :
    s.scheme.Calm c₀ side s.collect.store :=
  calm_congr h (fun side => by cases side <;> rfl) (fun side => by cases side <;> rfl) hc

theorem calm_adopt {k : Scheme} {w : State} (h : k.Consistent w.graphs w.pairs)
    (hc : k.Calm c₀ side w.store) (s : Session) : k.Calm c₀ side (s.adopt w).store :=
  calm_congr h (fun side => by cases side <;> rfl) (fun side => by cases side <;> rfl) hc

theorem calm_mutate (h : s.Consistent) (hc : s.scheme.Calm c₀ side s.store) {t : Side}
    {es : List Edit}
    (hes : t = side → ∀ r ∈ s.rules.rule? c₀.rule, ∀ b ∈ r.bindings, ∀ e ∈ es,
      ¬ e.Sets (c₀.element side) (b.attributes.on side)) :
    s.scheme.Calm c₀ side (s.perform (.mutate t es)).store := by
  have hf := (h.sound t).editAll es
  refine hc.of_reading (Act.put_follows h.sound t hf side) (Nat.le_refl _) (fun _ => .inl)
    fun hl r hr bi hbi => ?_
  by_cases ht : side = t
  · subst t
    have hg : (s.perform (.mutate side es)).store.graphs.on side = (s.graphs.on side).editAll es :=
      Sided.on_put_self _ _ _
    rw [hg] at hl ⊢
    exact (h.sound side).reading_editAll (hes rfl r hr bi.1 (Rule.mem_bindings hbi))
      hc.element_lt hl
  · have hg : (s.perform (.mutate t es)).store.graphs.on side = s.graphs.on side :=
      Sided.on_put_of_ne _ _ ht
    rw [hg]
    rfl

section Walks

variable (h : s.Consistent) (ht : ∀ side, s.rules.UniqueTypes side)
  (hu : ∀ side, s.rules.UniqueAttributes side) (hc : s.scheme.Calm c₀ side s.store)

include h ht hu hc

theorem calm_synchronize : s.scheme.Calm c₀ side s.synchronize.2.store := by
  have hcollect : s.collect.Consistent := (leaves_collect h s.options.direction).consistent
  have hcalm : s.scheme.Calm c₀ side s.collect.walkState.store := calm_collect h hc
  have hboth :=
    wp_and (Scheme.leaves_syncRoots (d := s.options.direction) (w := s.collect.walkState) hcollect)
    (Scheme.calm_syncRoots (d := s.options.direction) (w := s.collect.walkState)
      hcollect ht hu hcalm)
  have hpass :=
    exec_of_wp
      (I := fun w => s.scheme.Consistent w.graphs w.pairs ∧ s.scheme.Calm c₀ side w.store)
    (wp_mono hboth (fun _ _ hw => ⟨hw.1.consistent, hw.2⟩) fun _ _ hw => ⟨hw.1.1.consistent, hw.2⟩)
  exact calm_adopt hpass.1 hpass.2 s.collect

theorem calm_flush : s.scheme.Calm c₀ side s.flush.2.store := by
  have hcollect : s.collect.Consistent := (leaves_collect h s.options.direction).consistent
  by_cases hempty : s.collect.queue.items = []
  · rw [flush_of_nil hempty]
    exact calm_collect h hc
  have hdrained : s.scheme.Consistent s.drained.2.walk.graphs s.drained.2.walk.pairs ∧
      s.scheme.Calm c₀ side s.drained.2.walk.store := by
    let I (w : State) : Prop :=
      s.scheme.Consistent w.graphs w.pairs ∧ s.scheme.Calm c₀ side w.store
    refine drain_keep (I := I) ?_ ⟨hcollect, calm_collect h hc⟩
    intro p _ ha w hw
    have hside := mem_authorities_of_accepts ha
    have hboth := wp_and (Scheme.carries_carry hw.1 hside p.change)
      (Scheme.calm_carry hw.1 ht hu hw.2 hside p.change)
    refine exec_of_wp (I := I) (wp_mono hboth ?_ ?_)
    · exact fun _ _ hc => ⟨hc.1.1.consistent, hc.2⟩
    · exact fun _ _ hc => ⟨hc.1.1.consistent, hc.2⟩
  obtain ⟨hgraphs, hnext, hsub, _⟩ := releaseDeleted_spec s.drained.2.walk
  have hk : s.scheme.Consistent (releaseDeleted s.drained.2.walk).graphs
      (releaseDeleted s.drained.2.walk).pairs := by
    rw [hgraphs]
    exact hdrained.1.sublist hsub hnext
  rw [flush_of_ne_nil hempty]
  exact calm_adopt hk (hdrained.2.releaseDeleted hdrained.1) s.collect

theorem calm_perform {a : Action} (ha : c₀.Untouched s.rules side [a]) :
    s.scheme.Calm c₀ side (s.perform a).store := by
  refine (perform_keep (P :=
    fun t => t.scheme = s.scheme ∧ t.Consistent ∧ s.scheme.Calm c₀ side t.store) a
      ⟨rfl, h, hc⟩
    ?_ ?_ ?_ ?_ ?_).2.2
  · rintro t ⟨hs, hk, hc⟩
    exact ⟨hs, (hk.perform .collect).1, hs ▸ calm_collect hk (hs ▸ hc)⟩
  · rintro t u es hmade ⟨hs, hk, hc⟩
    refine ⟨hs, (hk.perform (.mutate u es)).1,
      hs ▸ calm_mutate hk (hs ▸ hc) fun hu r hr b hb e he => ?_⟩
    have hrules : t.rules = s.rules := congrArg Scheme.rules hs
    refine ha r (hrules ▸ hr) b hb a (List.mem_singleton_self a) e ?_
    rcases hmade with rfl | rfl <;> simpa [Action.edits, hu] using he
  · rintro t u on ⟨hs, hk, hc⟩
    refine ⟨hs, hk.observe u on, calm_congr (hs ▸ hk) ?_ ?_ hc⟩ <;>
      exact fun v => by cases u <;> cases v <;> rfl
  · rintro t ⟨hs, hk, hc⟩
    have hrules : t.rules = s.rules := congrArg Scheme.rules hs
    exact ⟨hs, (hk.perform .synchronize).1,
      hs ▸ calm_synchronize hk (hrules ▸ ht) (hrules ▸ hu) (hs ▸ hc)⟩
  · rintro t ⟨hs, hk, hc⟩
    have hrules : t.rules = s.rules := congrArg Scheme.rules hs
    exact ⟨(scheme_perform t .flush).trans hs, (hk.perform .flush).1,
      hs ▸ calm_flush hk (hrules ▸ ht) (hrules ▸ hu) (hs ▸ hc)⟩

/-- What was calm stays calm until somebody sets one of the attributes. -/
theorem calm_performAll {history : List Action} (hh : c₀.Untouched s.rules side history) :
    s.scheme.Calm c₀ side (s.performAll history).store := by
  induction history generalizing s with
  | nil => exact hc
  | cons a history ih =>
    have hs := scheme_perform s a
    have hrules : (s.perform a).rules = s.rules := congrArg Scheme.rules hs
    have hfirst := calm_perform h ht hu hc fun r hr b hb a' ha' =>
      hh r hr b hb a' (List.mem_singleton.mp ha' ▸ List.mem_cons_self)
    have hrest :=
      ih (h.perform a).1 (hrules ▸ ht) (hrules ▸ hu) (hs.symm ▸ hfirst)
        fun r hr b hb a' ha' =>
          hh r (hrules ▸ hr) b hb a' (List.mem_cons_of_mem a ha')
    exact hs ▸ hrest

end Walks

end Session

end GraphSync
