import GraphSync.Proofs.Walk.Behind

namespace GraphSync

open Walk

namespace OneWay

variable {k : OneWay} {w w' : State} {c c' : Correspondence} {r : Rule} {bi bi' : Binding × Nat}

/-- The elements of the pair are live, and its binding is left as it is. -/
structure Carried (k : OneWay) (w : State) (c : Correspondence) (bi : Binding × Nat) : Prop where
  live : ∀ s, (w.graphs.on s).contains (c.element s) = true
  settled : k.BindingNearly (fun _ _ _ => False) w c bi

theorem Carried.keeps (h : k.Carried w c bi) (hk : w.store.Keeps w'.store c) :
    k.Carried w' c bi := by
  refine ⟨fun s => ?_, h.settled.congr rfl (hk.values bi.1) rfl⟩
  have hsame : (w'.graphs.on s).element? (c.element s) = (w.graphs.on s).element? (c.element s) :=
    hk.element? s
  rw [Graph.contains, hsame]
  exact h.live s

/-- Only the attribute of one binding may have been written, on the target of the pair, and what is
remembered of it. -/
structure Sets (k : OneWay) (c : Correspondence) (bi : Binding × Nat) (w w' : State) : Prop where
  source : w'.graphs.on k.source = w.graphs.on k.source
  reading : ∀ name, name ≠ bi.1.attributes.on k.target →
    (w'.graphs.on k.target).reading (c.element k.target) name = (w.graphs.on k.target).reading
      (c.element k.target) name
  next : w'.pairs.next = w.pairs.next
  visited : w'.visited = w.visited
  kept : ∀ a ∈ w.pairs.entries, ∃ a' ∈ w'.pairs.entries, a'.core = a.core
  entry : ∀ c' ∈ w'.pairs.entries, c'.id = c.id →
    c'.core = c.core ∧ k.Carried w' c' bi ∧ ∀ i, i ≠ bi.2 → c'.shadow? i = c.shadow? i

/-- The values of other bindings are as they were, and what is remembered of them. -/
theorem Sets.other (h : k.Sets c bi w w') (hn : (r.bindings.map (·.attributes.on k.target)).Nodup)
    (hbi : bi ∈ r.numbered) (hbi' : bi' ∈ r.numbered) (hne : bi' ≠ bi)
    (hc' : c' ∈ w'.pairs.entries) (hid : c'.id = c.id) :
    w'.values c.elements bi'.1 = w.values c.elements bi'.1 ∧
    c'.shadow? bi'.2 = c.shadow? bi'.2 := by
  obtain ⟨_, _, hshadow⟩ := h.entry c' hc' hid
  refine ⟨k.sided_ext ?_ ?_, hshadow _ fun hindex => hne (Rule.eq_of_index hbi' hbi hindex)⟩
  · rw [State.values_on, State.values_on, h.source]
  · rw [State.values_on, State.values_on]
    exact h.reading _ fun hattr => hne (Rule.eq_of_attribute hn hbi' hbi hattr)

/-- What was carried over before is left as it was. -/
theorem Sets.carried (h : k.Sets c bi w w')
    (hn : (r.bindings.map (·.attributes.on k.target)).Nodup) (hbi : bi ∈ r.numbered)
    (hbi' : bi' ∈ r.numbered) (hc : k.Carried w c bi') (hc' : c' ∈ w'.pairs.entries)
    (hid : c'.id = c.id) : k.Carried w' c' bi' := by
  obtain ⟨hcore, hnew, _⟩ := h.entry c' hc' hid
  by_cases he : bi' = bi
  · rwa [he]
  · obtain ⟨hvalues, hshadow⟩ := h.other hn hbi hbi' he hc' hid
    exact ⟨hnew.live, hc.settled.congr hcore hvalues hshadow⟩

/-- Values that are left as they are, and are remembered if they are in step. -/
theorem Sets.keep (hl : w.pairs.Listed) (hc : c ∈ w.pairs.entries)
    (hlive : ∀ s, (w.graphs.on s).contains (c.element s) = true)
    (hkeep : bi.1.verdict k.direction none (w.values c.elements bi.1) =
      .keep (bi.1.inStep (w.values c.elements bi.1))) :
    k.Sets c bi w (if bi.1.inStep (w.values c.elements bi.1) then
      { w with pairs := w.pairs.recordShadow c.id bi.2 (w.values c.elements bi.1) } else w) := by
  split
  · have ht := Correspondences.Touches.recordShadow w.pairs c.id bi.2 (w.values c.elements bi.1)
    refine ⟨rfl, fun _ _ => rfl, rfl, rfl, ht.kept, fun c' hc' hid => ?_⟩
    obtain ⟨hcore, hself, hother⟩ := hl.of_recordShadow hc hc' hid
    have hel := Correspondence.elements_eq_of_core hcore
    refine ⟨hcore, ⟨fun s => ?_, .of_kept (fun _ => ?_) fun _ => ?_⟩, hother⟩
    · rw [Correspondence.element_eq_of_core hcore]
      exact hlive s
    · rw [hel]
      exact hkeep
    · rw [hel]
      exact hself
  · rename_i hout
    refine ⟨rfl, fun _ _ => rfl, rfl, rfl, fun a ha => ⟨a, ha, rfl⟩, fun c' hc' hid => ?_⟩
    obtain rfl := hl.eq_of_id hc' hc hid
    exact ⟨rfl, ⟨hlive, .of_kept (fun _ => hkeep) fun hin => absurd hin hout⟩,
      fun _ _ => rfl⟩

/-- A value that is copied to the target side, and is remembered. -/
theorem Sets.copy (hl : w.pairs.Listed) (hc : c ∈ w.pairs.entries)
    (hlive : ∀ s, (w.graphs.on s).contains (c.element s) = true) {g' : Graph}
    (hw : (w.graphs.on k.target).Rewrites g' (c.element k.target)
      (·.setValue (bi.1.attributes.on k.target)
        ((bi.1.copied (w.values c.elements bi.1) k.source).on k.target)))
    (report : Report) :
    k.Sets c bi w { w with
      graphs := w.graphs.put k.target g'
      pairs := w.pairs.recordShadow c.id bi.2 (bi.1.copied (w.values c.elements bi.1) k.source)
      report } := by
  have hsource : (w.graphs.put k.target g').on k.source = w.graphs.on k.source :=
    Sided.on_put_of_ne _ _ k.target_ne_source.symm
  have ht := Correspondences.Touches.recordShadow w.pairs c.id bi.2
    (bi.1.copied (w.values c.elements bi.1) k.source)
  refine ⟨hsource, fun name hne => ?_, rfl, rfl, ht.kept, fun c' hc' hid => ?_⟩
  · simp only [Sided.on_put_self]
    rw [hw.reading_setValue (hlive k.target)]
    simp [hne]
  obtain ⟨hcore, hself, hother⟩ := hl.of_recordShadow hc hc' hid
  refine ⟨hcore, ⟨fun s => ?_, .of_copied ?_ hself⟩, hother⟩
  · rw [Correspondence.element_eq_of_core hcore]
    rcases k.side_cases s with rfl | rfl
    · rw [hsource]
      exact hlive k.source
    · rw [Sided.on_put_self, hw.contains]
      exact hlive k.target
  · rw [Correspondence.elements_eq_of_core hcore]
    apply k.sided_ext
    · rw [State.values_on, k.copied_source, State.values_on, hsource]
    · simp only [State.values_on, Sided.on_put_self]
      rw [hw.reading_setValue (hlive k.target)]
      simp [Correspondence.element]

theorem sets_applyBinding (hl : w.pairs.Listed) (hc : c ∈ w.pairs.entries) (rule : RuleName) :
    wp (applyBinding k.direction rule c.id c.elements bi.1 bi.2) (fun _ => k.Sets c bi w)
      (fun _ _ => True) w := by
  apply OneWay.wp_applyBinding
  · exact fun _ _ _ => trivial
  · exact fun hlive hkeep => .keep hl hc hlive hkeep
  · exact fun hlive _ _ hw => .copy hl hc hlive hw _

end OneWay

end GraphSync
