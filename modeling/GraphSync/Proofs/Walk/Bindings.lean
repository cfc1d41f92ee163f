import GraphSync.Proofs.Walk.Progress

namespace GraphSync.Pass

open Walk

variable {p : Pass} {w w' : State} {f : Frame} {stack done : List Frame} {child : Child}

/-- A rule is being applied to `f`; it started in `w₀`, when the rules of `done₀` were done. -/
structure Applying (p : Pass) (stack done₀ : List Frame) (w₀ : State) (f : Frame)
    (done : List Frame) (w : State) : Prop where
  steady : p.Steady (f :: stack) done w
  moves : p.Moves (stack ++ done₀) w₀ w
  later : done₀ ⊆ done
  seen : p.Seen w

/-- A role that nothing was done about yet. -/
structure Vacant (p : Pass) (w : State) (f : Frame) (child : Child) : Prop where
  unpaired : p.first → ∀ c ∈ w.pairs.entries, c.isAnchor = false →
    c.element p.target ∉ p.mirrored w f child
  empty : p.blank → p.mirrored w f child = []

theorem Vacant.of (h : p.Vacant w f child) (hg : p.Grows w w')
    (hm : p.mirrored w' f child = p.mirrored w f child) (hs : (w.graphs.on p.target).Sound) :
    p.Vacant w' f child := by
  refine ⟨?_, fun hb => hm.trans (h.empty hb)⟩
  intro hf c hc hi hp
  rw [hm] at hp
  rcases hg.origin c hc with ⟨a, ha, he⟩ | ⟨_, _, hnew⟩
  · rw [Correspondence.element_eq_of_core he] at hp
    rw [Correspondence.isAnchor_eq_of_core he] at hi
    exact h.unpaired hf a ha hi hp
  · have hl := hs.member_lt hp
    omega

theorem Applying.write {done₀ : List Frame} {w₀ : State}
    (h : p.Applying stack done₀ w₀ f done w) (g' : Graph) {t' : Correspondences}
    (report : Report) (hco : p.Coherent (w.graphs.put p.target g') t')
    (hn : g'.next = (w.graphs.on p.target).next)
    (hc : ∀ x, g'.contains x = (w.graphs.on p.target).contains x)
    (hk : ∀ x, g'.kind? x = (w.graphs.on p.target).kind? x)
    (he : ∀ y, y ≠ f.pair.on p.target → g'.element? y = (w.graphs.on p.target).element? y)
    (ht : w.pairs.Touches t' f.id) (hr : report.elementsCreated = w.report.elementsCreated) :
    p.Applying stack done₀ w₀ f done
        { w with graphs := w.graphs.put p.target g', pairs := t', report } ∧
      p.Grows w { w with graphs := w.graphs.put p.target g', pairs := t', report } := by
  obtain ⟨hs, hm⟩ := h.steady.write hco hn hc hk he ht hr
  refine ⟨⟨hs, h.moves.trans (hm.mono ?_), h.later, ?_⟩, hm.toGrows⟩
  · exact List.append_subset.mpr ⟨List.subset_append_left _ _,
      List.Subset.trans h.later (List.subset_append_right _ _)⟩
  · intro c hc hfresh
    obtain ⟨a, ha, hcore, _⟩ := ht.old c hc
    rw [Correspondence.id_eq_of_core hcore] at hfresh ⊢
    exact h.seen a ha hfresh

/-- The bindings of `pre` were brought in step. -/
structure Bound (p : Pass) (stack done : List Frame) (w₀ : State) (f : Frame)
    (pre : List (Binding × Nat)) (w : State) : Prop where
  applying : p.Applying stack done w₀ f done w
  vacant : ∀ child, p.Vacant w f child
  bare : p.blank → ∀ name, (∀ bi ∈ pre, bi.1.attributes.on p.target ≠ name) →
    (w.graphs.on p.target).reading (f.pair.on p.target) name = .unset
  bound : (f.rule.bindings.map (·.attributes.on p.target)).Nodup → ∀ bi ∈ pre,
    p.BindingDone w f bi.1 bi.2

/-- The bindings before a position are apart from the one there. -/
theorem numbered_apart {rule : Rule} {s : Side} {pre post : List (Binding × Nat)} {b : Binding}
    {index : Nat} (hl : rule.numbered = pre ++ (b, index) :: post) :
    (∀ bi ∈ pre, bi.2 ≠ index) ∧ ((rule.bindings.map (·.attributes.on s)).Nodup →
      ∀ bi ∈ pre, bi.1.attributes.on s ≠ b.attributes.on s) := by
  constructor
  · intro bi hbi he
    have hn := rule.indices_nodup
    rw [hl, List.map_append, List.map_cons] at hn
    exact (List.nodup_append.mp hn).2.2 bi.2 (List.mem_map_of_mem hbi) index (by simp) he
  · intro hn bi hbi he
    have hm :
        rule.bindings.map (·.attributes.on s) = rule.numbered.map (·.1.attributes.on s) := by
      have hf : rule.numbered.map Prod.fst = rule.bindings := List.zipIdx_map_fst _ _
      rw [← hf, List.map_map]
      rfl
    rw [hm, hl, List.map_append, List.map_cons] at hn
    exact (List.nodup_append.mp hn).2.2 _ (List.mem_map_of_mem hbi) _ (by simp) he

theorem Bound.write {w₀ : State} {pre : List (Binding × Nat)}
    (h : p.Bound stack done w₀ f pre w) {b : Binding} {index : Nat}
    (hindex : ∀ bi ∈ pre, bi.2 ≠ index)
    (hapart : (f.rule.bindings.map (·.attributes.on p.target)).Nodup →
      ∀ bi ∈ pre, bi.1.attributes.on p.target ≠ b.attributes.on p.target)
    {w' : State} (ha : p.Applying stack done w₀ f done w') (hg : p.Grows w w')
    (ht : ∀ c' ∈ w'.pairs.entries, ∃ c ∈ w.pairs.entries, c'.core = c.core ∧
      ∀ i, i ≠ index → c'.shadow? i = c.shadow? i)
    (hm : ∀ child, p.mirrored w' f child = p.mirrored w f child)
    (hr : ∀ name, name ≠ b.attributes.on p.target →
      (w'.graphs.on p.target).reading (f.pair.on p.target) name =
        (w.graphs.on p.target).reading (f.pair.on p.target) name)
    (hnew : (f.rule.bindings.map (·.attributes.on p.target)).Nodup →
      p.BindingDone w' f b index) :
    p.Bound stack done w₀ f (pre ++ [(b, index)]) w' := by
  refine ⟨ha, ?_, ?_, ?_⟩
  · intro child
    exact (h.vacant child).of hg (hm child) h.applying.steady.sound
  · intro hp name hname
    rw [hr name (hname (b, index) (by simp)).symm]
    exact h.bare hp name fun bi hbi => hname bi (by simp [hbi])
  · intro hn bi hbi
    rcases List.mem_append.mp hbi with hbi | hbi
    · refine (h.bound hn bi hbi).of ?_ ?_
      · apply OneWay.sided_ext (k := p.toOneWay)
        · rw [State.values_on, State.values_on, hg.source]
        · rw [State.values_on, State.values_on, hr _ (hapart hn bi hbi)]
      · intro c' hc' hi
        obtain ⟨c, hc, he, hs⟩ := ht c' hc'
        exact ⟨c, hc, (Correspondence.id_eq_of_core he).symm.trans hi, hs _ (hindex bi hbi)⟩
    · rw [List.mem_singleton.mp hbi]
      exact hnew hn

private theorem shadow_recordShadow {t : Correspondences} {id : CorrespondenceId} {index : Nat}
    {values : Shadow} {c' : Correspondence}
    (hc' : c' ∈ (t.recordShadow id index values).entries) :
    (∃ c ∈ t.entries, c'.core = c.core ∧ ∀ i, i ≠ index →
      c'.shadow? i = c.shadow? i) ∧ (c'.id = id → c'.shadow? index = some values) := by
  obtain ⟨c, hc, he, hne, heq⟩ := Correspondences.mem_recordShadow hc'
  by_cases hi : c.id = id
  · rw [heq hi]
    refine ⟨⟨c, hc, rfl, ?_⟩, ?_⟩
    · intro i hne
      exact Dict.get?_insert_of_ne _ _ hne
    · intro _
      exact Dict.get?_insert_self _ _ _
  · rw [hne hi]
    exact ⟨⟨c, hc, rfl, fun _ _ => rfl⟩, fun hid => absurd hid hi⟩

theorem BindingDone.copied {b : Binding} {index : Nat} (values : Sided Value)
    (hv : w.values f.pair b = b.copied values p.source)
    (hs : ∀ c ∈ w.pairs.entries, c.id = f.id →
      c.shadow? index = some (b.copied values p.source)) :
    p.BindingDone w f b index := by
  refine ⟨?_, ?_, ?_⟩
  · intro ho
    rw [hv] at ho ⊢
    exact p.verdict_copied ho
  · intro _ c hc hi
    rw [hv]
    exact hs c hc hi
  · intro _
    rw [hv, p.copied_source, p.copied_target]

theorem Bound.keep {w₀ : State} {pre : List (Binding × Nat)}
    (h : p.Bound stack done w₀ f pre w) {b : Binding} {index : Nat}
    (hindex : ∀ bi ∈ pre, bi.2 ≠ index)
    (hapart : (f.rule.bindings.map (·.attributes.on p.target)).Nodup →
      ∀ bi ∈ pre, bi.1.attributes.on p.target ≠ b.attributes.on p.target)
    (hv : b.verdict p.direction none (w.values f.pair b) = .keep (b.inStep (w.values f.pair b))) :
    p.Bound stack done w₀ f (pre ++ [(b, index)]) (if b.inStep (w.values f.pair b) then
      { w with pairs := w.pairs.recordShadow f.id index (w.values f.pair b) } else w) := by
  have hexact (hn : (f.rule.bindings.map (·.attributes.on p.target)).Nodup) (hp : p.blank) :
      (w.values f.pair b).on p.target = b.convert p.target ((w.values f.pair b).on p.source) := by
    have hu : (w.values f.pair b).on p.target = .unset := by
      rw [State.values_on]
      exact h.bare hp _ (hapart hn)
    have hagrees := OneWay.agrees_of_verdict hv (.inr (by rw [hu]; rfl))
    simp only [Binding.agreesFrom, OneWay.source_other, hu] at hagrees
    rw [hu]
    cases hc : b.convert p.target ((w.values f.pair b).on p.source) <;> simp_all [Value.same]
  split
  · rename_i hin
    have hco := h.applying.steady.coherent.recordShadow f.id index (w.values f.pair b)
    have ha := h.applying.write (w.graphs.on p.target) w.report
      (by rwa [Sided.put_on]) rfl (fun _ => rfl) (fun _ => rfl) (fun _ _ => rfl)
      (.recordShadow _ _ _ _) rfl
    rw [Sided.put_on] at ha
    exact h.write hindex hapart ha.1 ha.2 (fun c' hc' => (shadow_recordShadow hc').1) (fun _ => rfl)
      (fun _ _ => rfl) fun hn =>
        ⟨fun _ => hv, fun _ c hc hi => (shadow_recordShadow hc).2 hi, hexact hn⟩
  · rename_i hin
    refine h.write hindex hapart h.applying (.refl p w)
      (fun c hc => ⟨c, hc, rfl, fun _ _ => rfl⟩)
      (fun _ => rfl) (fun _ _ => rfl) fun hn =>
        ⟨fun _ => hv, fun hi => absurd hi hin, hexact hn⟩

theorem Bound.copy {w₀ : State} {pre : List (Binding × Nat)}
    (h : p.Bound stack done w₀ f pre w) {b : Binding} {index : Nat}
    (hindex : ∀ bi ∈ pre, bi.2 ≠ index)
    (hapart : (f.rule.bindings.map (·.attributes.on p.target)).Nodup →
      ∀ bi ∈ pre, bi.1.attributes.on p.target ≠ b.attributes.on p.target) {g' : Graph}
    (hw : (w.graphs.on p.target).Rewrites g' (f.pair.on p.target)
      (·.setValue (b.attributes.on p.target) ((b.copied (w.values f.pair b) p.source).on p.target)))
    {report : Report} (hr : report.elementsCreated = w.report.elementsCreated) :
    p.Bound stack done w₀ f (pre ++ [(b, index)]) { w with
      graphs := w.graphs.put p.target g'
      pairs := w.pairs.recordShadow f.id index (b.copied (w.values f.pair b) p.source)
      report } := by
  have hs := h.applying.steady
  have hlive := (hs.owned f (by simp)).live p.target
  obtain ⟨ha, hg⟩ :=
    h.applying.write g' report ((hs.coherent.put (hs.sound.setValue hw)).recordShadow f.id index
    (b.copied (w.values f.pair b) p.source)) hw.next hw.contains (hw.kind? fun _ => rfl)
      (fun _ hy => hw.element?_of_ne hy)
    (.recordShadow _ _ _ _) hr
  refine h.write hindex hapart ha hg (fun c' hc' => (shadow_recordShadow hc').1) ?_ ?_ ?_
  · intro child
    simp only [Pass.mirrored, Sided.on_put_self]
    exact hw.members_setValue _ _
  · intro name hne
    simp only [Sided.on_put_self]
    rw [hw.reading_setValue hlive]
    simp [hne]
  · intro hn
    refine .copied (w.values f.pair b) (OneWay.sided_ext (k := p.toOneWay) ?_ ?_)
      fun c hc hi => (shadow_recordShadow hc).2 hi
    · rw [State.values_on, hg.source, p.copied_source, State.values_on]
    · simp only [State.values_on, Sided.on_put_self]
      rw [hw.reading_setValue hlive]
      simp

theorem bindings_spec {E : Error → State → Prop} (h : p.Steady (f :: stack) done w)
    (hseen : p.Seen w) (hv : ∀ child, p.Vacant w f child)
    (hb : p.blank → ∀ name, (w.graphs.on p.target).reading (f.pair.on p.target) name = .unset) :
    wp (f.rule.numbered.forM fun (b, index) => do
        let _ ← applyBinding p.direction f.rule.name f.id f.pair b index)
      (fun _ w' => p.Bound stack done w f f.rule.numbered w') E w := by
  have start : p.Bound stack done w f [] w :=
    ⟨⟨h, .refl p _ w, fun _ hg => hg, hseen⟩, hv, fun hp name _ => hb hp name,
      fun _ _ hm => by cases hm⟩
  refine wp_forM_worked (I := p.Bound stack done w f) ?_ start
  intro pre (b, index) post hl w₁ hw₁
  obtain ⟨hindex, hapart⟩ := numbered_apart (s := p.target) hl
  rw [wp_bind]
  refine OneWay.wp_applyBinding ?_ (fun _ hkeep => hw₁.keep hindex hapart hkeep)
    fun _ _ g' hw => hw₁.copy hindex hapart hw rfl
  intro s e hd
  rw [(hw₁.applying.steady.owned f (by simp)).live s] at hd
  cases hd

end GraphSync.Pass
