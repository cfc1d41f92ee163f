import GraphSync.Proofs.Pass.Idempotence
import GraphSync.Proofs.Session.Anchor

namespace GraphSync.Session

variable {s : Session}

/-- What the passes and flushes of a history start from never leads back to a root. -/
def KeepsAway (s : Session) (history : List Action) : Prop :=
  ∀ past a, past ++ [a] <+: history → ∀ t, (s.performAll past).started? a = some t →
    ¬ t.LeadsBack

theorem KeepsAway.head {a : Action} {history : List Action} (h : s.KeepsAway (a :: history)) :
    ∀ t, s.started? a = some t → ¬ t.LeadsBack :=
  h [] a (by simp)

theorem KeepsAway.tail {a : Action} {history : List Action} (h : s.KeepsAway (a :: history)) :
    (s.perform a).KeepsAway history := by
  intro past a' hp
  exact h (a :: past) a' (by simpa using hp)

theorem keepsAway_nil (s : Session) : s.KeepsAway [] := by
  intro past a hp
  simp at hp

theorem keepsAway_cons {a : Action} {history : List Action}
    (hs : ∀ t, s.started? a = some t → ¬ t.LeadsBack) (h : (s.perform a).KeepsAway history) :
    s.KeepsAway (a :: history) := by
  intro past a' hp t ht
  cases past with
  | nil =>
    obtain rfl : a' = a := by simpa using hp
    exact hs t ht
  | cons b past =>
    obtain ⟨rfl, hrest⟩ : b = a ∧ past ++ [a'] <+: history := by simpa using hp
    exact h past a' hrest t ht

/-- A root that no role holds and that has no partner but the other root is not met again. -/
theorem not_leadsBack (h : ∀ side ∈ s.options.flushDirection.authorities,
      (s.graphs.on side).referrers (s.graphs.on side).root = [] ∧
      ∀ c ∈ s.pairs.entries, c.isAnchor = false →
        c.element side ≠ (s.graphs.on side).root) :
    ¬ s.LeadsBack := by
  intro hl
  obtain ⟨side, hside, _, hx⟩ := hl
  exact Store.not_exposed (h side hside).1 (h side hside).2 hx

/-- Rules that never ask for a counterpart of the type of a root keep away from the roots. -/
theorem keepsAway_of_rules (h : ∀ side, ¬ s.scheme.Returns side) (history : List Action) :
    s.KeepsAway history := by
  have rules (past : List Action) : (s.performAll past).scheme = s.scheme :=
    performAll_induction (P := fun t => t.scheme = s.scheme) rfl
      (fun t a ht => (scheme_perform t a).trans ht) past
  have started {t t' : Session} {a : Action} (ht : t.started? a = some t') :
      t'.scheme = t.scheme := by
    cases a with
    | edit side es =>
      rw [started?] at ht
      split at ht
      · cases ht
        rfl
      · cases ht
    | synchronize => cases ht; rfl
    | flush => cases ht; rfl
    | _ => cases ht
  intro past a _ t ht hl
  obtain ⟨side, _, hr, _⟩ := hl
  rw [started ht, rules] at hr
  exact h side hr

/-- The pair of the roots stays recorded over a history. -/
theorem Consistent.keeps_anchor (h : s.Consistent) {history : List Action}
    (hk : s.KeepsAway history) {c : Correspondence} (hc : c ∈ s.pairs.entries)
    (ha : c.isAnchor = true) :
    (s.performAll history).Consistent ∧ ∃ c' ∈ (s.performAll history).pairs.entries,
      c'.core = c.core := by
  induction history generalizing s c with
  | nil => exact ⟨h, c, hc, rfl⟩
  | cons a history ih =>
    obtain ⟨hp, hl⟩ := h.perform a
    obtain ⟨c₁, hc₁, hcore⟩ := hl hk.head c hc ha
    obtain ⟨hh, c', hc', hcore'⟩ :=
      ih hp hk.tail hc₁ ((Correspondence.isAnchor_eq_of_core hcore).trans ha)
    exact ⟨hh, c', hc', hcore'.trans hcore⟩

/-- Once the roots are paired, the pair is that of the root rule and both roots after every history
that keeps away from the roots, and a pass is not refused for a pair that contradicts another
one. -/
theorem anchor_permanent (hs : s.Reachable) {c : Correspondence} (hc : s.pairs.anchor? = some c)
    {history : List Action} (hk : s.KeepsAway history) :
    (∃ c', (s.performAll history).pairs.anchor? = some c' ∧ c'.core = c.core ∧
      c'.Is s.rootRule ((s.performAll history).graphs.map Graph.root)) ∧
      ∀ conflict, (s.performAll history).synchronize.1 ≠ .error (.pairConflict conflict) := by
  have hm : c ∈ s.pairs.entries := List.mem_of_find?_eq_some hc
  have ha : c.isAnchor = true := by simpa using List.find?_some hc
  obtain ⟨hh, c', hc', hcore⟩ := hs.consistent.keeps_anchor hk hm ha
  have ha' : c'.isAnchor = true := (Correspondence.isAnchor_eq_of_core hcore).trans ha
  refine ⟨⟨c', hh.anchor?_eq hc' ha', hcore, ?_⟩,
    (leaves_synchronize hh).2 ⟨c', hc', ha'⟩⟩
  have hrule := (hs.consistent.anchor c hm ha).1
  exact ⟨(Correspondence.rule_eq_of_core hcore).trans hrule, (hh.anchor c' hc' ha').2⟩

/-- The rules lead back to the roots here, but after the link up was taken back no walk goes that
way. -/
theorem anchor_permanent_containers :
    let s := Sample.returning
    let history : List Action :=
      [.mutate .left [.unlink ⟨1⟩ "up" ⟨0⟩], .synchronize, .observe .left, .flush]
    s.Reachable ∧ s.pairs.anchor?.isSome = true ∧ s.scheme.Returns .left ∧
      s.KeepsAway history ∧ (∃ c', (s.performAll history).pairs.anchor? = some c' ∧
        c'.Is s.rootRule ((s.performAll history).graphs.map Graph.root)) ∧
      ∀ conflict, (s.performAll history).synchronize.1 ≠ .error (.pairConflict conflict) := by
  intro s history
  have hc : s.pairs.anchor?.isSome = true := by decide +kernel
  have hk : s.KeepsAway history := by
    refine keepsAway_cons (fun t ht => by cases ht) ?_
    refine keepsAway_cons (fun t ht => ?_) (keepsAway_cons (fun t ht => by cases ht) ?_)
    · cases ht
      exact not_leadsBack (by decide +kernel)
    refine keepsAway_cons (fun t ht => ?_) (keepsAway_nil _)
    cases ht
    exact not_leadsBack (by decide +kernel)
  obtain ⟨⟨c', hc', _, hi⟩, hp⟩ :=
    anchor_permanent Sample.reachable_returning (Option.some_get hc).symm hk
  exact ⟨Sample.reachable_returning, hc, by decide +kernel, hk, ⟨c', hc', hi⟩, hp⟩

/-- Where a root is met again, as a member under the root rule, a pass that succeeds drops the pair
of the roots, and the next one fails. -/
theorem anchor_lost_returning : Sample.returning.Reachable ∧
    (∃ c, Sample.returning.pairs.anchor? = some c ∧ c.Is "top" ⟨⟨0⟩, ⟨0⟩⟩) ∧
    (∃ report, Sample.returning.synchronize.1 = .ok report) ∧
    Sample.returning.synchronize.2.pairs.anchor? = none ∧
    Sample.returning.synchronize.2.synchronize.1 =
      .error (.pairConflict ⟨"top", ⟨⟨0⟩, ⟨0⟩⟩, ⟨⟨0⟩, ⟨2⟩⟩⟩) := by
  have ha : Sample.returning.pairs.anchor?.isSome = true ∧
      ∀ c ∈ Sample.returning.pairs.anchor?,
        c.Is "top" ⟨⟨0⟩, ⟨0⟩⟩ := by decide +kernel
  have hpass : Sample.returning.synchronize.1.toOption.isSome = true ∧
      Sample.returning.synchronize.2.pairs.anchor? = none ∧
      Sample.returning.synchronize.2.synchronize.1 =
        .error (.pairConflict ⟨"top", ⟨⟨0⟩, ⟨0⟩⟩, ⟨⟨0⟩, ⟨2⟩⟩⟩) := by
    decide +kernel
  refine ⟨Sample.reachable_returning, ?_, exists_ok hpass.1, hpass.2⟩
  obtain ⟨c, hc⟩ := Option.isSome_iff_exists.mp ha.1
  exact ⟨c, hc, ha.2 c hc⟩

end GraphSync.Session
