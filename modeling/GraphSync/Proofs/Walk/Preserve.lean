import GraphSync.Proofs.Graph.Journal
import GraphSync.Proofs.Walk.Anchor

namespace GraphSync

open Walk Relation

/-- Elements live on from `a` to `b`, and a pair of `b` is one of `a` or has both its elements. -/
structure Store.Preserves (a b : Store) : Prop where
  follows : ∀ s, (a.graphs.on s).Follows (b.graphs.on s)
  observed : ∀ s, (b.graphs.on s).observed = (a.graphs.on s).observed
  contains : ∀ s x, (a.graphs.on s).contains x = true → (b.graphs.on s).contains x = true
  entries : ∀ c ∈ b.pairs.entries, (∃ c₀ ∈ a.pairs.entries, c.core = c₀.core) ∨
    ∀ s, (b.graphs.on s).contains (c.element s) = true

namespace Store.Preserves

variable {a b e : Store} {c : Correspondence} {s : Side} {x : ElementId}

theorem refl (hs : ∀ s, (a.graphs.on s).Sound) : a.Preserves a :=
  ⟨fun s => (hs s).refl, fun _ => rfl, fun _ _ hx => hx, fun c hc => .inl ⟨c, hc, rfl⟩⟩

theorem dead (h : a.Preserves b) (hd : (b.graphs.on s).contains x = false) :
    (a.graphs.on s).contains x = false := by
  cases hl : (a.graphs.on s).contains x with
  | false => rfl
  | true => exact Bool.noConfusion (hd.symm.trans (h.contains s x hl))

/-- An element that was there is there if it is live now. -/
theorem live (h : a.Preserves b) (hx : x.index < (a.graphs.on s).next)
    (hl : (b.graphs.on s).contains x = true) : (a.graphs.on s).contains x = true := by
  obtain ⟨kind, hk⟩ := Graph.contains_iff_kind.mp hl
  exact Graph.contains_iff_kind.mpr ⟨kind, (h.follows s).kind_of_old x kind hx hk⟩

/-- An element that was gone is gone, if it was there once. -/
theorem gone (h : a.Preserves b) (hx : x.index < (a.graphs.on s).next)
    (hd : (a.graphs.on s).contains x = false) : (b.graphs.on s).contains x = false := by
  cases hl : (b.graphs.on s).contains x with
  | false => rfl
  | true => exact Bool.noConfusion (hd.symm.trans (h.live hx hl))

/-- A pair that has lost an element is one of those that had lost it. -/
theorem lost (h : a.Preserves b) (hc : c ∈ b.pairs.entries)
    (hd : (b.graphs.on s).contains (c.element s) = false) :
    ∃ c₀ ∈ a.pairs.entries, c.core = c₀.core ∧
      (a.graphs.on s).contains (c.element s) = false := by
  rcases h.entries c hc with ⟨c₀, hc₀, hcore⟩ | hl
  · exact ⟨c₀, hc₀, hcore, h.dead hd⟩
  · exact Bool.noConfusion (hd.symm.trans (hl s))

theorem trans (h : a.Preserves b) (h' : b.Preserves e) : a.Preserves e := by
  refine ⟨fun s => (h.follows s).trans (h'.follows s), fun s =>
    (h'.observed s).trans (h.observed s), fun s x hx => h'.contains s x (h.contains s x hx), ?_⟩
  intro c hc
  rcases h'.entries c hc with ⟨c₁, hc₁, hcore₁⟩ | hl
  swap
  · exact .inr hl
  rcases h.entries c₁ hc₁ with ⟨c₀, hc₀, hcore₀⟩ | hl
  · exact .inl ⟨c₀, hc₀, hcore₁.trans hcore₀⟩
  · refine .inr fun s => h'.contains s _ ?_
    rw [Correspondence.element_eq_of_core hcore₁]
    exact hl s

/-- What is missed to carry an edit over was missed before, if the new member of the edited role was
there. -/
theorem misses {k : Scheme} {change : Change} {rules : RuleSet} (h : a.Preserves b)
    (hk : k.Consistent a.graphs a.pairs) (hm : b.Misses rules s change x)
    (hold : change.Before (a.graphs.on s).next) : a.Misses rules s change x := by
  obtain ⟨p, hp, hel, hx, r, hr, hasks⟩ := hm.paired
  have hgone : (b.graphs.on s.other).contains (p.element s.other) = false := hx ▸ hm.gone
  obtain ⟨p₀, hp₀, hcore, hdead⟩ := h.lost hp hgone
  have hel₀ := Correspondence.element_eq_of_core hcore
  refine ⟨h.live ?_ hm.edited, fun role index target he => ?_, hx ▸ hdead, p₀, hp₀,
    hel₀ s ▸ hel, hel₀ s.other ▸ hx, r, ?_, hasks⟩
  · rw [← hel, hel₀]
    exact hk.element_lt s p₀ hp₀
  · exact h.live (hold role index target (.inl he)) (hm.added role index target he)
  · rwa [← Correspondence.rule_eq_of_core hcore]

end Store.Preserves

variable {k : Scheme} {d : Direction} {V : CorrespondenceId → Prop} {a b : Store} {w w' : State}

/-- A walk neither starts nor stops recording. -/
theorem Act.observed (h : Act k d V a b) (s : Side) :
    (b.graphs.on s).observed = (a.graphs.on s).observed := by
  have put {t : Side} {g : Graph} (hg : g.observed = (a.graphs.on t).observed) :
      ((a.graphs.put t g).on s).observed = (a.graphs.on s).observed := by
    by_cases ht : s = t
    · subst t
      rwa [Sided.on_put_self]
    · rw [Sided.on_put_of_ne _ _ ht]
  cases h with
  | remember => rfl
  | copy on names known numbered side write => exact put write.observed
  | link on names side partner live new le write => exact put write.observed
  | unlink forced on names side write => exact put write.observed
  | make => exact put rfl
  | record => rfl

theorem Act.preserves (h : Act k d V a b) (hs : ∀ s, (a.graphs.on s).Sound) : a.Preserves b := by
  refine ⟨h.follows hs, h.observed, fun s x hx => h.contains hs hx, fun c hc => ?_⟩
  rcases h.origin hc with ⟨c', hc', hcore, _⟩ | ⟨_, _, _, _, _, _, _, _, hl⟩
  · exact .inl ⟨c', hc', hcore⟩
  · exact .inr fun s => h.contains hs (hl s)

theorem Acts.preserves (h : Acts k d V a b) (hk : k.Consistent a.graphs a.pairs) : a.Preserves b :=
  h.keep (P := fun b => a.Preserves b) hk (fun _ _ hk hact hp => hp.trans (hact.preserves hk.sound))
    (.refl hk.sound)

theorem Walk.Frees.preserves (h : Frees d w w') : w.store.Preserves w'.store := by
  refine ⟨h.follows, h.observed, fun s x hx => ?_, fun c hc =>
    .inl ⟨c, h.entries.subset hc, rfl⟩⟩
  have hc := h.contains s x
  exact hc.trans hx

namespace Scheme

theorem Paired.preserves {r : Rule} {c : Correspondence} (h : k.Paired r c w w')
    (hs : ∀ s, (w.graphs.on s).Sound) : w.store.Preserves w'.store := by
  have hg : w'.store.graphs = w.store.graphs := h.graphs
  refine ⟨fun s => ?_, fun s => ?_, fun s x hx => ?_, fun a ha => ?_⟩
  · rw [hg]
    exact (hs s).refl
  · rw [hg]
  · rwa [hg]
  · cases hi : a.isAnchor with
    | true => exact .inr fun s => h.consistent.anchor_alive ha hi s
    | false => exact .inl ⟨a, h.new a ha hi, rfl⟩

/-- A pass that succeeds leaves no pair that has lost an element. -/
theorem preserves_syncRoots (h : k.Consistent w.graphs w.pairs) :
    wp (syncRoots k.rules d k.rootRule) (fun _ w' => w.store.Preserves w'.store ∧ w'.store.Alive)
      (fun _ w' => w.store.Preserves w'.store) w := by
  refine wp_syncRoots_paired h (fun _ _ => .refl h.sound) ?_
  intro r c w₁ hp
  have hw₁ := hp.preserves h.sound
  refine wp_run_purged hp.consistent hp.entry hp.anchor hp.rule fun w₂ hpurged => ?_
  have h₂ := hpurged.consistent
  have hw₂ := hw₁.trans hpurged.frees.preserves
  exact wp_mono hpurged.traces
    (fun _ _ hw => ⟨hw₂.trans (hw.acts.preserves h₂), hw.acts.alive h₂ hpurged.alive⟩)
    fun _ _ hw => hw₂.trans (hw.1.acts.preserves h₂)

/-- An edit was carried over as far as it goes: what is noted as deleted is the target of a removal
that is gone. -/
structure Carried (k : Scheme) (s : Side) (c : Change) (w w' : State) : Prop where
  consistent : k.Consistent w'.graphs w'.pairs
  preserves : w.store.Preserves w'.store
  deleted : ∀ p, p ∈ w'.deleted ↔ p ∈ w.deleted ∨ ∃ role index target,
    c.effect = .referenceRemoved role index target ∧
    p = (s, target) ∧ (w.graphs.on s).contains target = false

/-- Carrying an edit over fails for an element that is missing only where a counterpart of the
edited element is gone. -/
theorem carried_carry (h : k.Consistent w.graphs w.pairs) {s : Side} (hs : s ∈ d.authorities)
    (c : Change) :
    wp (carry k.rules d s c) (fun _ w' => k.Carried s c w w')
      (fun e w' => k.Carried s c w w' ∧
        ∀ g, e = .graph g → ∃ x, w.store.Misses k.rules s c x ∧ g = .unknownElement x) w := by
  let w₀ : State := { w with visited := [] }
  have h₀ : k.Consistent w₀.graphs w₀.pairs := h
  have wrote {w' : State} (hw : k.Went d (fun _ => True) w₀ w')
      (hc : ∀ role index target, c.effect ≠ .referenceRemoved role index target) :
      k.Carried s c w w' := by
    refine ⟨hw.consistent, hw.acts.preserves h₀, fun p => ?_⟩
    rw [hw.deleted]
    exact ⟨.inl, fun hp => hp.elim id fun ⟨role, index, target, he, _⟩ =>
      absurd he (hc role index target)⟩
  refine wp_carry_traced h hs (fun _ hw hc => wrote hw hc)
    (fun _ _ hw hc he => ⟨wrote hw hc, he⟩) ?_
  rintro role index target he w' ⟨w₁, deleted, hf, _, rfl, hmem⟩
  have hc₁ : k.Consistent w₁.graphs w₁.pairs := h₀.freed hf
  refine ⟨hc₁, hf.preserves, fun p => (hmem p).trans (or_congr_right ?_)⟩
  constructor
  · exact fun ⟨hp, hd⟩ => ⟨role, index, target, he, hp, hd⟩
  · rintro ⟨_, _, _, he', hp, hd⟩
    rw [he] at he'
    cases he'
    exact ⟨hp, hd⟩

theorem preserves_releaseDeleted (hs : ∀ s, (w.graphs.on s).Sound) :
    w.store.Preserves (releaseDeleted w).store := by
  obtain ⟨hg, _, hsub, _⟩ := releaseDeleted_spec w
  have hg' : (releaseDeleted w).store.graphs = w.store.graphs := hg
  refine ⟨fun s => ?_, fun s => ?_, fun s x hx => ?_, fun c hc =>
    .inl ⟨c, hsub.subset hc, rfl⟩⟩
  · rw [hg']
    exact (hs s).refl
  · rw [hg']
  · rwa [hg']

end Scheme

end GraphSync
