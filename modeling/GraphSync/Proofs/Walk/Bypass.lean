import GraphSync.Proofs.Walk.Preserve

namespace GraphSync

open Walk Relation

namespace Store

/-- The element of side `s` is not the root, and in no pair of either record. -/
structure Foreign (a b : Store) (s : Side) (x : ElementId) : Prop where
  inner : x ≠ (a.graphs.on s).root
  before : a.pairs.Unpaired s x
  after : b.pairs.Unpaired s x

/-- From `a` to `b` foreign elements were not written. A pair of `b` is one of `a`, or that of the
roots, or has both its elements, and such a pair is not dropped. -/
structure Bypasses (a b : Store) : Prop where
  spared : ∀ s, (a.graphs.on s).Spared (a.Foreign b s) (b.graphs.on s)
  origin : ∀ c ∈ b.pairs.entries, (∃ c₀ ∈ a.pairs.entries, c.core = c₀.core) ∨
    (∀ s, c.element s = (a.graphs.on s).root) ∨
      c.isAnchor = false ∧ ∀ s, (b.graphs.on s).contains (c.element s) = true
  kept : ∀ c ∈ a.pairs.entries, c.isAnchor = false →
    (∀ s, (a.graphs.on s).contains (c.element s) = true) → ∃ c' ∈ b.pairs.entries,
      c'.core = c.core

namespace Bypasses

variable {a b e : Store} {s : Side} {x : ElementId}

/-- Nothing was written, and no pair with live elements was dropped. -/
theorem of_elements (hg : ∀ s, (b.graphs.on s).elements = (a.graphs.on s).elements)
    (hnew : ∀ c ∈ b.pairs.entries, c ∈ a.pairs.entries ∨
      ∀ s, c.element s = (a.graphs.on s).root)
    (hkept : ∀ c ∈ a.pairs.entries, (∀ s, (a.graphs.on s).contains (c.element s) = true) →
      c ∈ b.pairs.entries) :
    a.Bypasses b where
  spared s := .congr _ (hg s)
  origin c hc := (hnew c hc).imp (fun hc => ⟨c, hc, rfl⟩) .inl
  kept c hc _ hl := ⟨c, hkept c hc hl, rfl⟩

theorem refl (a : Store) : a.Bypasses a :=
  .of_elements (fun _ => rfl) (fun _ hc => .inl hc) fun _ hc _ => hc

/-- What is foreign from `a` to `e` is in no pair in between. -/
theorem unpaired (h : a.Bypasses b) (h' : b.Bypasses e) (hx : a.Foreign e s x) :
    b.pairs.Unpaired s x := by
  intro c hc he
  rcases h.origin c hc with ⟨c₀, hc₀, hcore⟩ | hroot | ⟨hi, hl⟩
  · exact hx.before c₀ hc₀ ((Correspondence.element_eq_of_core hcore s).symm.trans he)
  · exact hx.inner (he.symm.trans (hroot s))
  · obtain ⟨c', hc', hcore⟩ := h'.kept c hc hi hl
    exact hx.after c' hc' ((Correspondence.element_eq_of_core hcore s).trans he)

theorem trans (h : a.Bypasses b) (h' : b.Bypasses e) : a.Bypasses e where
  spared s := ((h.spared s).mono fun _ hx => ⟨hx.inner, hx.before, h.unpaired h' hx⟩).trans
    ((h'.spared s).mono fun _ hx => ⟨hx.inner, h.unpaired h' hx, hx.after⟩)
  origin c hc := by
    rcases h'.origin c hc with ⟨c₁, hc₁, hcore₁⟩ | hnew
    · rcases h.origin c₁ hc₁ with ⟨c₀, hc₀, hcore₀⟩ | hroot | ⟨hi, hl⟩
      · exact .inl ⟨c₀, hc₀, hcore₁.trans hcore₀⟩
      · exact .inr (.inl fun s => (Correspondence.element_eq_of_core hcore₁ s).trans (hroot s))
      · refine .inr
          (.inr ⟨(Correspondence.isAnchor_eq_of_core hcore₁).trans hi, fun s => ?_⟩)
        rw [Correspondence.element_eq_of_core hcore₁]
        exact (h'.spared s).contains (hl s)
    · exact .inr hnew
  kept c hc hi hl := by
    obtain ⟨c', hc', hcore'⟩ := h.kept c hc hi hl
    obtain ⟨c'', hc'', hcore''⟩ :=
      h'.kept c' hc' ((Correspondence.isAnchor_eq_of_core hcore').trans hi) fun s => by
        rw [Correspondence.element_eq_of_core hcore']
        exact (h.spared s).contains (hl s)
    exact ⟨c'', hc'', hcore''.trans hcore'⟩

end Bypasses

end Store

variable {k : Scheme} {d : Direction} {V : CorrespondenceId → Prop} {a b : Store} {w w' : State}

/-- An element of a pair that a write is for is not foreign. -/
theorem Store.Names.not_foreign {id : CorrespondenceId} {rule : Rule} {pair : Sided ElementId}
    (h : a.Names id rule pair) (s : Side) : ¬ a.Foreign b s (pair.on s) := by
  intro hx
  rcases h.recorded with ⟨c, hc, hi, _⟩ | ⟨hroot, _⟩
  · exact hx.before c hc (congrArg (·.on s) (h.entry c hc hi).2)
  · refine hx.inner ?_
    rw [hroot, Sided.on_map]

theorem Act.bypasses (h : Act k d V a b) (hk : k.Consistent a.graphs a.pairs) : a.Bypasses b := by
  refine ⟨fun s => ?_, fun c hc => ?_, fun c hc hi hl => h.kept hk hc hi hl⟩
  · have put {t : Side} {g : Graph} (hg : (a.graphs.on t).Spared (a.Foreign b t) g) :
        (a.graphs.on s).Spared (a.Foreign b s) ((a.graphs.put t g).on s) := by
      by_cases ht : s = t
      · subst t
        rwa [Sided.on_put_self]
      · rw [Sided.on_put_of_ne _ _ ht]
        exact .refl _ _
    cases h with
    | remember => exact .refl _ _
    | copy on names known numbered side write => exact put (write.spared (names.not_foreign _))
    | link on names side partner live new le write =>
      exact put (write.spared_insertIdx (names.not_foreign _))
    | unlink forced on names side write used paired =>
      obtain ⟨c, hc, he⟩ := paired
      exact put (write.spared_filter (names.not_foreign _) fun hy => hy.before c hc he)
    | make => exact put ((hk.sound _).spared_add _ _)
    | record => exact .refl _ _
  · rcases h.origin hc with ⟨c', hc', hcore, _⟩ | ⟨hi, _, _, _, _, _, _, _, hl⟩
    · exact .inl ⟨c', hc', hcore⟩
    · exact .inr (.inr ⟨hi, fun s => h.contains hk.sound (hl s)⟩)

theorem Acts.bypasses (h : Acts k d V a b) (hk : k.Consistent a.graphs a.pairs) : a.Bypasses b :=
  h.keep (P := fun b => a.Bypasses b) hk
    (fun _ _ hk hact ha => ha.trans (hact.bypasses hk)) (.refl a)

/-- Of the pairs, only those that have lost an element may be dropped. -/
theorem Walk.Frees.bypasses (h : Frees d w w')
    (hkept : ∀ c ∈ w.pairs.entries, (∀ s, (w.graphs.on s).contains (c.element s) = true) →
      c ∈ w'.pairs.entries) :
    w.store.Bypasses w'.store where
  spared s := (h.spared s).mono fun _ hx => hx.before
  origin c hc := .inl ⟨c, h.entries.subset hc, rfl⟩
  kept c hc _ hl := ⟨c, hkept c hc hl, rfl⟩

namespace Scheme

theorem Paired.bypasses {r : Rule} {c : Correspondence} (h : k.Paired r c w w') :
    w.store.Bypasses w'.store := by
  have hg : w'.store.graphs = w.store.graphs := h.graphs
  refine .of_elements (fun s => by rw [hg]) (fun a ha => ?_) fun a ha _ => h.old a ha
  cases hi : a.isAnchor with
  | false => exact .inl (h.new a ha hi)
  | true =>
    refine .inr fun s => ?_
    rw [Correspondence.element, (h.consistent.anchor a ha hi).2, Sided.on_map]
    rfl

theorem bypasses_syncRoots (h : k.Consistent w.graphs w.pairs) :
    wp (syncRoots k.rules d k.rootRule) (fun _ w' => w.store.Bypasses w'.store)
      (fun _ w' => w.store.Bypasses w'.store) w := by
  refine wp_syncRoots_paired h (fun _ _ => .refl _) fun r c w₁ hp => ?_
  refine wp_run_purged hp.consistent hp.entry hp.anchor hp.rule fun w₂ hpurged => ?_
  have hw₂ := hp.bypasses.trans (hpurged.frees.bypasses hpurged.kept)
  exact wp_mono hpurged.traces (fun _ _ hw => hw₂.trans (hw.acts.bypasses hpurged.consistent))
    fun _ _ hw => hw₂.trans (hw.1.acts.bypasses hpurged.consistent)

theorem bypasses_carry (h : k.Consistent w.graphs w.pairs) {s : Side} (hs : s ∈ d.authorities)
    (c : Change) :
    wp (carry k.rules d s c) (fun _ w' => w.store.Bypasses w'.store)
      (fun _ w' => w.store.Bypasses w'.store) w := by
  let w₀ : State := { w with visited := [] }
  have h₀ : k.Consistent w₀.graphs w₀.pairs := h
  refine wp_carry_traced h hs (fun _ hw _ => hw.acts.bypasses h₀)
    (fun _ _ hw _ _ => hw.acts.bypasses h₀) ?_
  rintro _ _ target _ w' ⟨w₁, deleted, hf, hpairs, rfl, _⟩
  exact hf.bypasses fun c hc _ => hpairs ▸ hc

/-- The pairs that are dropped at the end of a flush have lost an element. -/
theorem bypasses_releaseDeleted (hd : ∀ p ∈ w.deleted, (w.graphs.on p.1).contains p.2 = false) :
    w.store.Bypasses (releaseDeleted w).store := by
  obtain ⟨hg, _, hsub, hmem⟩ := releaseDeleted_spec w
  have hg' : (releaseDeleted w).store.graphs = w.store.graphs := hg
  refine .of_elements (fun s => by rw [hg']) (fun c hc => .inl (hsub.subset hc)) fun c hc hl => ?_
  refine (hmem c hc).mpr fun p hp he => ?_
  exact Bool.noConfusion ((hd p hp).symm.trans (he ▸ hl p.1))

end Scheme

end GraphSync
