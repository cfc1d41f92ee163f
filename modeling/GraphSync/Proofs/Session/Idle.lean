import GraphSync.Proofs.Graph.Removal
import GraphSync.Proofs.Session.Calm

namespace GraphSync

theorem Graph.editAll_keep {P : Graph → Prop} {g : Graph} {es : List Edit}
    (edit : ∀ g, ∀ e ∈ es, P g → P (g.edit e)) (h : P g) : P (g.editAll es) := by
  induction es generalizing g with
  | nil => exact h
  | cons e es ih =>
    exact ih (fun g e' he' => edit g e' (List.mem_cons_of_mem e he'))
      (edit g e List.mem_cons_self h)

namespace Session

variable {s : Session} {side : Side} {a : Action} {history : List Action}

theorem not_immediate_of_started? {es : List Edit} (h : s.started? (.edit side es) = none) :
    ¬ s.options.propagation.isImmediate = true := by
  intro himmediate
  rw [started?, if_pos himmediate] at h
  cases h

/-- A session that goes on after a pass of a reachable one. -/
theorem Reachable.later {u : Session} (h : s.Reachable)
    (hlater : u = s.synchronize.2.performAll history) :
    u.Consistent ∧ u.rules = s.rules ∧ u.scheme = s.scheme ∧ u.options = s.options := by
  subst u
  obtain ⟨hrules, hroot, hoptions⟩ := performAll_settings s.synchronize.2 history
  refine ⟨((h.performAll [.synchronize]).performAll history).consistent, hrules, ?_, hoptions⟩
  rw [scheme, hrules, hroot]
  rfl

/-- Whether an action starts a walk is a matter of the options. -/
theorem started?_congr {t : Session} (ho : t.options = s.options) (h : s.started? a = none) :
    t.started? a = none := by
  cases a with
  | edit side es => rw [started?, ho, if_neg (not_immediate_of_started? h)]
  | synchronize => cases h
  | flush => cases h
  | _ => rfl

section Keep

variable {P : Graph → Prop}
  (journal : ∀ g g' : Graph, g'.elements = g.elements → g'.next = g.next → P g → P g')

include journal

theorem collect_keep (h : P (s.graphs.on side)) : P (s.collect.graphs.on side) := by
  rw [collect_graphs]
  exact journal (s.graphs.on side) _ rfl rfl h

theorem observe_keep (t : Side) (on : Bool) (h : P (s.graphs.on side)) :
    P ((s.graphs.put t ((s.graphs.on t).observe on)).on side) := by
  by_cases ht : side = t
  · subst t
    rw [Sided.on_put_self]
    exact journal (s.graphs.on side) _ rfl rfl h
  · rwa [Sided.on_put_of_ne _ _ ht]

/-- What is kept when journals are emptied or switched, and by the edits that an action brings to a
side, is kept of the graph on that side if the action starts no walk. The pairs are as before. -/
theorem perform_idle (edit : ∀ g, ∀ e ∈ a.edits side, P g → P (g.edit e))
    (hi : s.started? a = none) (h : P (s.graphs.on side)) :
    P ((s.perform a).graphs.on side) ∧ (s.perform a).pairs = s.pairs := by
  have mutate {s : Session} {t : Side} {es : List Edit} (he : t = side → es = a.edits side)
      (h : P (s.graphs.on side)) : P ((s.perform (.mutate t es)).graphs.on side) := by
    by_cases ht : side = t
    · subst t
      have hg : (s.perform (.mutate side es)).graphs.on side = (s.graphs.on side).editAll es :=
        Sided.on_put_self _ _ _
      rw [hg]
      exact Graph.editAll_keep (he rfl ▸ edit) h
    · have hg : (s.perform (.mutate t es)).graphs.on side = s.graphs.on side :=
        Sided.on_put_of_ne _ _ ht
      rwa [hg]
  cases a with
  | edit t es =>
    rw [perform_edit, if_neg (not_immediate_of_started? hi)]
    exact ⟨collect_keep journal (mutate (fun ht => (if_pos ht).symm) (collect_keep journal h)), rfl⟩
  | mutate t es => exact ⟨mutate (fun ht => (if_pos ht).symm) h, rfl⟩
  | observe t =>
    unfold perform Session.observe
    dsimp only
    split
    · exact ⟨observe_keep journal t true h, rfl⟩
    · exact ⟨h, rfl⟩
  | stopObserving t =>
    exact ⟨observe_keep journal (s := s.collect) t false (collect_keep journal h), rfl⟩
  | collect => exact ⟨collect_keep journal h, rfl⟩
  | synchronize => cases hi
  | flush => cases hi

theorem performAll_idle
    (edit : ∀ g, ∀ a ∈ history, ∀ e ∈ a.edits side, P g → P (g.edit e))
    (hi : ∀ a ∈ history, s.started? a = none) (h : P (s.graphs.on side)) :
    P ((s.performAll history).graphs.on side) ∧ (s.performAll history).pairs = s.pairs := by
  induction history generalizing s with
  | nil => exact ⟨h, rfl⟩
  | cons a history ih =>
    obtain ⟨hfirst, hpairs⟩ :=
      perform_idle journal (fun g => edit g a List.mem_cons_self) (hi a List.mem_cons_self) h
    obtain ⟨hrest, hpairs'⟩ := ih (fun g a' ha' => edit g a' (List.mem_cons_of_mem a ha'))
      (fun a' ha' => started?_congr (s.perform_settings a).2.2 (hi a' (List.mem_cons_of_mem a ha')))
      hfirst
    exact ⟨hrest, hpairs'.trans hpairs⟩

/-- What is kept from the end of a pass to the start of the next walk. -/
theorem collect_idle (side : Side)
    (edit : ∀ g, ∀ a ∈ history, ∀ e ∈ a.edits side, P g → P (g.edit e))
    (hi : ∀ a ∈ history, s.started? a = none) (h : P (s.pass.2.graphs.on side)) :
    P ((s.synchronize.2.performAll history).collect.graphs.on side) ∧
      (s.synchronize.2.performAll history).pairs = s.pass.2.pairs := by
  have hafter : P (s.synchronize.2.graphs.on side) := by
    rw [synchronize_eq, adopt_graphs]
    exact journal (s.pass.2.graphs.on side) _ rfl rfl h
  have hoptions : s.synchronize.2.options = s.options := rfl
  have hidle : ∀ a ∈ history, s.synchronize.2.started? a = none :=
    fun a ha => started?_congr hoptions (hi a ha)
  obtain ⟨hlater, hpairs⟩ := performAll_idle journal edit hidle hafter
  exact ⟨collect_keep journal hlater, hpairs⟩

end Keep

variable (hi : ∀ a ∈ history, s.started? a = none)

include hi

/-- A side that nobody edits has its roles. -/
theorem members_idle (he : ∀ a ∈ history, a.edits side = []) : ∀ x role,
    ((s.synchronize.2.performAll history).collect.graphs.on side).members x role =
      (s.pass.2.graphs.on side).members x role := by
  refine (collect_idle
    (P := fun g => ∀ x role, g.members x role = (s.pass.2.graphs.on side).members x role)
    (fun g g' hg _ h x role => ?_) side (fun g a ha e hm => ?_) hi fun _ _ => rfl).1
  · rw [← h x role, Graph.members, Graph.members, Graph.element?, Graph.element?, hg]
  · rw [he a ha] at hm
    cases hm

/-- An element is live until somebody removes it. -/
theorem contains_idle (hs : (s.pass.2.graphs.on side).Sound) {x : ElementId}
    (he : ∀ a ∈ history, ∀ e ∈ a.edits side, e ≠ .remove x)
    (hx : (s.pass.2.graphs.on side).contains x = true) :
    ((s.synchronize.2.performAll history).collect.graphs.on side).contains x = true := by
  refine (collect_idle (P := fun g => g.Sound ∧ g.contains x = true) (fun g g' hg hn h => ?_) side
    (fun g a ha e hm h => ?_) hi ⟨hs, hx⟩).1.2
  · refine ⟨(h.1.congr g' hg hn).sound, ?_⟩
    simp only [Graph.contains, Graph.element?, hg]
    exact h.2
  · refine ⟨(h.1.edit e).sound, ?_⟩
    by_contra hdead
    exact he a ha e hm (h.1.eq_remove h.2 (by simpa using hdead))

theorem pairs_idle : (s.synchronize.2.performAll history).pairs = s.pass.2.pairs :=
  (collect_idle (P := fun _ => True) (fun _ _ _ _ h => h) .left (fun _ _ _ _ _ h => h) hi trivial).2

/-- If a pass ended well, and nobody removed an element since, then the pairs are alive when the
next walk starts. -/
theorem alive_idle (hk : s.Consistent) (hok : ∃ report, s.synchronize.1 = .ok report)
    (he : ∀ a ∈ history, ∀ side, ∀ e ∈ a.edits side, ∀ x, e ≠ .remove x) :
    (s.synchronize.2.performAll history).collect.walkState.store.Alive := by
  intro c (hc : c ∈ (s.synchronize.2.performAll history).pairs.entries) side
  rw [pairs_idle hi] at hc
  have hsound : (s.pass.2.graphs.on side).Sound := by
    refine ((hk.perform .synchronize).1.sound side |>.congr _ ?_ ?_).sound <;> cases side <;> rfl
  have hold : (s.pass.2.graphs.on side).contains (c.element side) = true := by
    have hlive := (preserves_synchronize hk).2 hok c hc side
    rwa [store, synchronize_eq, contains_adopt] at hlive
  exact contains_idle hi hsound (fun a ha e hm => he a ha side e hm _) hold

/-- What is left after removals on a side. -/
theorem prunes_idle (hs : (s.pass.2.graphs.on side).Sound)
    (he : ∀ a ∈ history, ∀ e ∈ a.edits side, ∃ x, e = .remove x) :
    (s.pass.2.graphs.on side).Prunes
      ((s.synchronize.2.performAll history).collect.graphs.on side) := by
  refine (collect_idle (fun g g' hg hn h => h.congr hg hn) side (fun g a ha e hm h => ?_)
    hi hs.prunes).1
  obtain ⟨x, rfl⟩ := he a ha e hm
  exact h.trans (h.sound.prunes_remove x)

end Session

end GraphSync
