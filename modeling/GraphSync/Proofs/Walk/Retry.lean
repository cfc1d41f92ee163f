import GraphSync.Proofs.Walk.Repeat

namespace GraphSync.Pass

open Walk

variable {p : Pass} {w w' w₁ : State} {inner stack done : List Frame} {f : Frame} {child : Child}
  {c : Correspondence} {m : ElementId} {e : Error} {fuel : Nat}

/-- The pair of the frame is recorded. -/
structure Entered (p : Pass) (w : State) (f : Frame) (c : Correspondence) : Prop where
  mem : c ∈ w.pairs.entries
  id : c.id = f.id
  pair : c.elements = f.pair
  rule : p.rules.rule? c.rule = some f.rule

/-- The pairs that may have been visited: those of the frames on which rules are being applied, and
those that are done. -/
def passed (w : State) (stack done : List Frame) : List CorrespondenceId :=
  stack.map Frame.id ++ recorded w done

/-- Rules are being applied to the frames of `stack` once more, and nothing has changed yet. The
fuel suffices for all pairs. -/
structure Retraces (w' : State) (stack done : List Frame) (fuel : Nat) (w₁ : State) : Prop where
  nodup : (passed w' stack done).Nodup
  subset : passed w' stack done ⊆ w'.pairs.entries.map Correspondence.id
  fuel : w'.pairs.entries.length + 2 ≤ fuel + stack.length
  same : Scheme.Same (passed w' stack done) [] w' w₁

theorem Retraces.enough (h : Retraces w' stack done fuel w₁) :
    (recorded w' done).length + 2 ≤ fuel := by
  have hlength := (List.subperm_of_subset h.nodup h.subset).length_le
  have hfuel := h.fuel
  simp only [passed, List.length_append, List.length_map] at hlength
  omega

/-- The rule of a frame that is neither below itself nor done is applied. -/
theorem Retraces.enter (h : Retraces w' stack done (fuel + 1) w₁) (hc : p.Entered w' f c)
    (hnew : f.id ∉ (stack ++ done).map Frame.id) :
    Retraces w' (f :: stack) done fuel { w₁ with visited := f.id :: w₁.visited } := by
  have hout : f.id ∉ passed w' stack done := fun hi => hnew (by
    rw [List.map_append]
    exact (List.append_subset.mpr ⟨List.subset_append_left _ _, fun _ hd =>
      List.mem_append_right _ (List.mem_filter.mp hd).1⟩) hi)
  have hfuel := h.fuel
  refine ⟨List.nodup_cons.mpr ⟨hout, h.nodup⟩,
    List.cons_subset.mpr ⟨?_, h.subset⟩, ?_, ?_⟩
  · rw [← hc.id]
    exact List.mem_map_of_mem hc.mem
  · rw [List.length_cons]
    omega
  · exact (h.same.mono (List.subset_cons_self _ _)).visit List.mem_cons_self

namespace Resumes

variable (h : p.Resumes inner done w w')

include h

/-- Bindings that were brought in step stay as they are. -/
theorem binding {bi : Binding × Nat} (hbi : bi ∈ f.rule.numbered)
    (hd : p.BindingDone w f bi.1 bi.2) (hc : p.Entered w' f c) :
    Scheme.Stays p.direction [] w' c bi := by
  have hm : c ∈ w.pairs.entries := h.alike.pairs ▸ hc.mem
  have hb : bi.1 ∈ f.rule.bindings := (List.mem_zipIdx' hbi).2 ▸ List.getElem_mem _
  have hnearly : p.BindingNearly (fun _ _ _ => False) w c bi := hd.nearly hm hc.id hc.pair
  have hstays :=
    (hnearly
      (by rw [State.values_on]; exact h.ordered c hm f.rule hc.rule bi.1 hb)).resolve_right id
  rwa [Scheme.Stays, ← h.alike.values, ← h.alike.conflict] at hstays

theorem placed {y : ElementId} (hmet : p.Met w done f child m y) (hc : p.Entered w' f c) :
    p.scheme.Placed w' (recorded w' done) c child p.source m y := by
  have hl := h.steady.coherent.listed
  exact ((hmet.toPlaced h.steady hc.pair).alike hl h.alike).recorded (h.alike.pairs ▸ hl)

/-- A role that is done is walked again without effect. -/
theorem syncRole {V : List CorrespondenceId} {apply : Apply} (hd : p.RoleDone w done f child)
    (hc : p.Entered w' f c) (happly : p.scheme.Repeats V [] w' apply (recorded w' done))
    (hw : Scheme.Same V [] w' w₁) :
    wp (syncRole p.rules p.direction apply child p.source c.elements) (fun _ => Scheme.Same V [] w')
      (fun _ _ => False) w₁ := by
  have hl : w'.pairs.Listed := h.consistent.listed
  have hnearly : p.RoleNearly (fun _ _ _ => False) w' (done.map Frame.id) c child :=
    (hd.nearly h.steady hc.pair).alike h.steady.coherent.listed h.alike
  refine Scheme.repeat_syncRole (k := p.scheme) h.consistent (h.alive c hc.mem) (fun m hm => ?_)
    (fun hforced y hy => ?_) happly hw
  · obtain ⟨y, hy⟩ := (hnearly.placed m hm).resolve_right id
    exact ⟨y, hy.recorded hl⟩
  · exact (hnearly.fresh hl hforced hy).imp_left fun ⟨m, hm, hp⟩ => ⟨m, hm, hp.recorded hl⟩

/-- A rule that had come to a member comes there again, and has changed nothing till then. -/
theorem come {E : Error → State → Prop} (hnew : f.id ∉ (stack ++ done).map Frame.id)
    (hcomes : p.Comes w done f child m) (hc : p.Entered w' f c)
    (hr : Retraces w' stack done fuel w₁)
    (stop : ∀ fuel w₂ earlier later, Retraces w' (f :: stack) done fuel w₂ →
      wp (linkMember p.rules p.direction
        (applyRule p.rules p.direction fuel ((f :: stack).map Frame.id)) child p.source
        (c.element p.target) earlier m later) (fun _ _ => False) E w₂) :
    wp (applyRule p.rules p.direction fuel (stack.map Frame.id) f.rule f.id f.pair)
      (fun _ _ => False) E w₁ := by
  have hfuel := hr.enough
  obtain ⟨fuel, rfl⟩ : ∃ n, fuel = n + 1 := ⟨fuel - 1, by omega⟩
  have hentered := hr.enter hc hnew
  have hnodup := hentered.nodup
  have happly : p.scheme.Repeats (passed w' (f :: stack) done) [] w'
      (applyRule p.rules p.direction fuel ((f :: stack).map Frame.id)) (recorded w' done) :=
    Scheme.repeat_applyRule h.consistent h.atRest (fun c hc _ => h.alive c hc)
      (List.nodup_append.mp hnodup).2.1
      (List.subset_append_right _ _) fuel _ (by omega) fun id hi hd =>
        (List.nodup_append.mp hnodup).2.2 id hi id hd rfl
  have hpath : f.id ∉ stack.map Frame.id :=
    fun hi => hnew (by simpa using .inl (by simpa using hi))
  have hvisited : f.id ∉ w₁.visited := by
    obtain ⟨visited, _, hsub, _, rfl⟩ := hr.same
    rw [h.visited, List.nil_append] at hsub
    exact fun hi => (List.nodup_cons.mp hnodup).1 (hsub hi)
  obtain ⟨pre, post, hchildren, hroles⟩ := hcomes.roles
  obtain ⟨before, after, hmembers, hmet⟩ := hcomes.members
  have hnodup' := h.attributes f.rule (RuleSet.mem_of_rule? hc.rule).1
  have hauth : p.direction.authorities = [p.source] := rfl
  rw [applyRule, wp_ite, if_neg hpath, wp_bind, wp_get, wp_ite, if_neg hvisited, wp_bind, wp_modify,
    applyParts, wp_bind]
  refine wp_mono
    (wp_forM_keep (I := Scheme.Same _ [] w') (E := fun _ _ => False) (fun bi hbi w₂ hw₂ => ?_)
      hentered.same)
    (fun _ w₂ hw₂ => ?_) fun _ _ hf => hf.elim
  · rw [wp_bind, ← hc.id, ← hc.pair]
    exact Scheme.repeat_binding h.consistent (h.alive c hc.mem) hc.mem
      (h.binding hbi (hcomes.bindings hnodup' bi hbi) hc) _ (RuleSet.mem_of_rule? hc.rule).2 hw₂
  rw [hchildren, wp_forM_append, ← hc.pair]
  refine wp_mono
    (wp_forM_keep (I := Scheme.Same _ [] w') (E := fun _ _ => False)
      (fun child' hchild' w₃ hw₃ => ?_) hw₂)
    (fun _ w₃ hw₃ => ?_) fun _ _ hf => hf.elim
  · rw [hauth, wp_forM_cons]
    exact h.syncRole (hroles child' hchild') hc happly hw₃
  · have hrole : w'.role c child p.source = before ++ m :: after := by
      rw [h.alike.role, h.steady.role_followed hc.pair, hmembers]
    rw [wp_forM_cons, hauth, wp_forM_cons]
    refine wp_imp
      (Scheme.wp_syncRole_until h.consistent (h.alive c hc.mem) hrole (fun m' hm' => ?_) happly
      (fun earlier w₄ hw₄ =>
        stop fuel w₄ earlier after ⟨hnodup, hentered.subset, hentered.fuel, hw₄⟩) hw₃)
      fun _ _ hf => hf.elim
    obtain ⟨y, hy⟩ := hmet m' hm'
    exact ⟨y, h.placed hy hc⟩

end Resumes

/-- The rule fails with the same error again, and has changed nothing till then. -/
theorem Halts.again (hh : p.Halts w done stack f e) (h : p.Resumes inner done w w')
    (hc : p.Entered w' f c) (hr : Retraces w' stack done fuel w₁) :
    wp (applyRule p.rules p.direction fuel (stack.map Frame.id) f.rule f.id f.pair)
      (fun _ _ => False)
      (fun e' w₂ => e' = e ∧ w₂.graphs = w'.graphs ∧ w₂.pairs = w'.pairs) w₁ := by
  induction hh generalizing c fuel w₁ with
  | cycle again =>
    have hfuel := hr.enough
    obtain ⟨fuel, rfl⟩ : ∃ n, fuel = n + 1 := ⟨fuel - 1, by omega⟩
    rw [applyRule, wp_ite, if_pos again]
    exact ⟨rfl, hr.same.store⟩
  | @noRule stack f child m kind new comes unpaired known unresolved =>
    refine h.come new comes hc hr fun fuel w₂ earlier later hr₂ => ?_
    obtain ⟨visited, conflicts, _, _, rfl⟩ := hr₂.same
    refine Scheme.wp_linkMember_unresolved (k := p.scheme)
      (w := { w' with visited, report := { w'.report with conflicts } }) h.consistent
      (h.alive c hc.mem p.target) ?_ ?_ unresolved earlier later ⟨rfl, rfl, rfl⟩
    · rw [← role_mirrored hc.pair child, ← h.alike.role, ← h.alike.counterpart?] at unpaired
      exact unpaired
    · have hsource : (w.graphs.on p.source).kind? m = some kind := h.steady.source ▸ known
      rwa [Graph.kind?, ← h.alike.element?] at hsource
  | @deeper stack f g child m a e new comes chosen id pair rule _ ih =>
    have hl := h.steady.coherent.listed
    have hmem : a ∈ w'.pairs.entries := h.alike.pairs ▸ chosen.mem
    obtain ⟨a', hfound, _, hplaced, hid⟩ :=
      (chosen.toPlaced h.steady hc.pair (List.mem_singleton_self a.id)).alike hl h.alike
    have hmem' : a' ∈ w'.pairs.entries :=
      (Correspondences.of_counterpart?_eq_some h.consistent.listed hfound).1.mem
    obtain rfl : a' = a := h.consistent.listed.eq_of_id hmem' hmem (List.mem_singleton.mp hid)
    refine h.come new comes hc hr fun fuel w₂ earlier later hr₂ => ?_
    obtain ⟨visited, conflicts, _, _, rfl⟩ := hr₂.same
    refine Scheme.wp_linkMember_placed (k := p.scheme)
      (w := { w' with visited, report := { w'.report with conflicts } }) h.consistent
      (h.alive c hc.mem) ?_ hfound hplaced earlier later fun r hr' => ?_
    · obtain ⟨before, after, hmembers, _⟩ := comes.members
      have hrole := (h.alike.role c child p.source).trans (h.steady.role_followed hc.pair child)
      exact hrole.symm ▸ hmembers ▸ by simp
    · obtain rfl : g.rule = r := Option.some.inj (rule.symm.trans hr')
      rw [id, pair]
      exact wp_imp (ih ⟨hmem, id, pair, rule⟩ hr₂) fun _ _ hf => hf.elim

/-- A pass that was broken off fails with the same error again, and changes nothing. -/
theorem Broken.again {g : Frame} (hb : p.Broken w inner done g e) (h : p.Resumes inner done w w')
    (hanchor : ∃ c ∈ w.pairs.entries, c.isAnchor = true) :
    wp (syncRoots p.rules p.direction p.rootRule) (fun _ _ => False)
      (fun e' w₂ => e' = e ∧ w₂.graphs = w'.graphs ∧ w₂.pairs = w'.pairs) w' := by
  obtain ⟨c, hm, ha⟩ := hanchor
  have hc : c ∈ w'.pairs.entries := h.alike.pairs.symm ▸ hm
  obtain ⟨hrule, hel⟩ := h.consistent.anchor c hc ha
  have hentered : p.Entered w' g c :=
    ⟨hc, hb.roots c hm ha, hel.trans hb.pair.symm, hrule.symm ▸ hb.rule⟩
  have hretraces : Retraces w' [] done (nestingLimit p.rules p.direction w'.graphs) w' :=
    ⟨h.nodup_recorded, recorded_subset w' done, h.length_entries_le,
      .refl (by simp [h.conflicts])⟩
  refine Scheme.wp_syncRoots_recorded (k := p.scheme) h.consistent hc ha hb.rule
    (h.kinds hb.kinds) ?_
  rw [wp_bind]
  refine wp_releaseAllLost_of_alive (fun a ha' => h.alive a (List.mem_filter.mp ha').1) ?_
  rw [start, wp_bind, wp_get, hentered.id, hentered.pair]
  exact hb.halts.again h hentered hretraces

end GraphSync.Pass
