import GraphSync.Proofs.Merge.Steady

namespace GraphSync

namespace Merge

open Walk Relation

variable {k : Scheme} {w₀ w w' : State} {id : CorrespondenceId}
  {path done : List CorrespondenceId} {pending : List (Binding × Nat)} {c c' : Correspondence}
  {r : Rule} {pair : Sided ElementId} {b : Binding} {index : Nat}

/-- The handle stands for the pair, under the rule. -/
def Stands (k : Scheme) (w : State) (id : CorrespondenceId) (r : Rule)
    (pair : Sided ElementId) : Prop :=
  ∃ c ∈ w.pairs.entries, c.id = id ∧ c.elements = pair ∧ k.rules.rule? c.rule = some r

/-- The next binding of the innermost pair is still to be applied. -/
structure Next (k : Scheme) (w₀ : State) (path done : List CorrespondenceId)
    (pending : List (Binding × Nat)) (c : Correspondence) (r : Rule) (b : Binding) (index : Nat)
    (w : State) : Prop where
  steady : Steady k w₀ (c.id :: path) done ((b, index) :: pending) w
  entry : c ∈ w.pairs.entries
  rule : k.rules.rule? c.rule = some r
  numbered : (b, index) ∈ r.numbered
  fresh : (b, index) ∉ pending

namespace Next

/-- What its verdict reads is what was there at the start. -/
theorem untouched (h : Next k w₀ path done pending c r b index w)
    (ht : ∀ s, k.rules.UniqueTypes s) (hu : ∀ s, k.rules.UniqueAttributes s) :
    w.values c.elements b = w₀.values c.elements b ∧
    c.shadow? index = w₀.shadow? c.id index :=
  h.steady.since.untouched (h.steady.apart ht) hu h.entry h.rule h.numbered fun hb =>
    hb.past rfl (by simp)

theorem verdict_eq (h : Next k w₀ path done pending c r b index w)
    (ht : ∀ s, k.rules.UniqueTypes s) (hu : ∀ s, k.rules.UniqueAttributes s) :
    verdict w₀ c (b, index) = b.verdict .twoWay (c.shadow? index) (w.values c.elements b) := by
  obtain ⟨hvalues, hshadow⟩ := h.untouched ht hu
  rw [verdict, hvalues, hshadow]

/-- It was applied; for the other bindings nothing has changed. -/
theorem bind (h : Next k w₀ path done pending c r b index w) (ht : ∀ s, k.rules.UniqueTypes s)
    (ha : Acts k .twoWay (· = c.id) w.store w'.store) (hb : w'.store.Anchored)
    (hv : w'.visited = w.visited) (hm' : c' ∈ w'.pairs.entries) (hcore : c'.core = c.core)
    (hothers : ∀ bi ∈ r.numbered, bi ≠ (b, index) →
      w'.values c.elements bi.1 = w.values c.elements bi.1)
    (hshadows : ∀ i, i ≠ index → c'.shadow? i = c.shadow? i)
    (hreading : ∀ s x name, (w'.graphs.on s).reading x name = (w.graphs.on s).reading x name ∨
      (c.element s = x ∧ b.attributes.on s = name ∧ verdict w₀ c (b, index) = .copy s.other))
    (hsettled : Settled w₀ w' c' (b, index)) (hc : w.report.conflicts ⊆ w'.report.conflicts)
    (hn : w'.report.conflicts.Nodup)
    (hreported : ∀ x ∈ w'.report.conflicts, x ∈ w.report.conflicts ∨
      (verdict w₀ c (b, index) = .conflict ∧ x = w₀.conflict c.rule c.id c.elements b)) :
    Steady k w₀ (c.id :: path) done pending w' := by
  have hg : Grows k (· = c.id) w w' := ⟨h.steady.consistent, h.steady.alive, hb, ha⟩
  have hl' := (ha.consistent h.steady.consistent).listed
  have hid := Correspondence.id_eq_of_core hcore
  have hrule := Correspondence.rule_eq_of_core hcore
  have hel := Correspondence.elements_eq_of_core hcore
  have hnow : Handled k (c.id :: path) done pending c' (b, index) := by
    refine ⟨by simp [hid], ⟨r, hrule ▸ h.rule, h.numbered⟩, fun _ => h.fresh⟩
  have hverdict : verdict w₀ c' (b, index) = verdict w₀ c (b, index) := by
    rw [verdict, verdict, hid, hel]
  refine h.steady.write ht hg hv hn
    (h.steady.since.write ht hg h.steady.recorded (List.subset_cons_self _ _) hc ?_ ?_ ?_ ?_)
  · intro a ha' hi bi hbi
    obtain rfl := hl'.eq_of_id ha' hm' (hi.trans hid.symm)
    by_cases he : bi = (b, index)
    · exact he ▸ hsettled
    · have hnumbered := hbi.mem_numbered (hrule ▸ h.rule)
      have hbefore : Handled k (c.id :: path) done ((b, index) :: pending) c bi :=
        ⟨by simp, ⟨r, h.rule, hnumbered⟩,
          fun _ => by simpa [he] using hbi.past (by simp [hid])⟩
      refine (h.steady.since.settled c h.entry bi hbefore).keeps (hothers bi hnumbered he)
        (hshadows _ fun hx => he ?_) hcore hc
      exact Rule.eq_of_index hnumbered h.numbered hx
  · intro s x name
    refine (hreading s x name).imp_right ?_
    rintro ⟨hx, hname, hcopy⟩
    refine ⟨c', hm', (b, index), hnow, ?_, hname, hverdict.trans hcopy⟩
    rw [Correspondence.element_eq_of_core hcore, hx]
  · intro a ha' hi i
    obtain rfl := hl'.eq_of_id ha' hm' (hi.trans hid.symm)
    by_cases he : i = index
    · exact .inr ⟨b, he ▸ hnow⟩
    · rw [hshadows i he, hid]
      refine (h.steady.since.remembered c h.entry i).imp_right ?_
      rintro ⟨b', hb'⟩
      exact ⟨b', (hb'.mono (List.subset_cons_self _ _)).of_core hcore⟩
  · intro x hx
    refine (hreported x hx).imp_right ?_
    rintro ⟨hconflict, rfl⟩
    exact ⟨c', hm', (b, index), hnow, hverdict.trans hconflict, by rw [hid, hel, hrule]⟩

/-- A binding that is left as it is. -/
theorem keep (h : Next k w₀ path done pending c r b index w) (ht : ∀ s, k.rules.UniqueTypes s)
    (hu : ∀ s, k.rules.UniqueAttributes s)
    (hv : b.verdict .twoWay (c.shadow? index) (w.values c.elements b) =
      .keep (b.inStep (w.values c.elements b))) :
    let w' := if b.inStep (w.values c.elements b) then
      { w with pairs := w.pairs.recordShadow c.id index (w.values c.elements b) } else w
    Steady k w₀ (c.id :: path) done pending w' ∧ Stands k w' c.id r c.elements := by
  obtain ⟨hvalues, hshadow⟩ := h.untouched ht hu
  have hno : verdict w₀ c (b, index) ≠ .conflict := by
    rw [h.verdict_eq ht hu, hv]
    exact fun he => by cases he
  have houtcome := Binding.outcome_of_keep hv
  have hname := (RuleSet.mem_of_rule? h.rule).2
  dsimp only
  split
  · rename_i hin
    let values := w.values c.elements b
    let c' := { c with shadows := c.shadows.insert index values }
    have hm' : c' ∈ (w.pairs.recordShadow c.id index values).entries :=
      Correspondences.mem_recordShadow_self _ _ h.entry
    have hact :
        Act k .twoWay (· = c.id) w.store ⟨w.graphs, w.pairs.recordShadow c.id index values⟩ :=
      .remember rfl (.of_entry h.steady.consistent h.entry (h.steady.alive c h.entry) h.rule)
        (hname ▸ h.rule) h.numbered hin
    have hb : Store.Anchored ⟨w.graphs, w.pairs.recordShadow c.id index values⟩ := by
      obtain ⟨a, ha, hanchor⟩ := h.steady.anchored
      obtain ⟨a', ha', hcore⟩ :=
        (Correspondences.Touches.recordShadow _ c.id index values).kept a ha
      exact ⟨a', ha', (Correspondence.isAnchor_eq_of_core hcore).trans hanchor⟩
    refine ⟨h.bind ht (.single hact) hb rfl hm' rfl (fun _ _ _ => rfl)
      (fun i he => Dict.get?_insert_of_ne _ _ he)
      (fun _ _ _ => .inl rfl) ⟨?_, fun hc => absurd hc hno⟩ (fun _ hx => hx)
      h.steady.conflicts_nodup fun _ => .inl, c', hm', rfl, rfl, h.rule⟩
    have hshadow' : c'.shadow? index = some values := Dict.get?_insert_self _ _ _
    rw [hin, if_pos rfl] at houtcome
    rw [← hvalues, ← hshadow, houtcome, hshadow']
    rfl
  · rename_i hin
    refine ⟨h.bind ht .refl h.steady.anchored rfl h.entry rfl (fun _ _ _ => rfl) (fun _ _ => rfl)
      (fun _ _ _ => .inl rfl) ⟨?_, fun hc => absurd hc hno⟩ (fun _ hx => hx)
      h.steady.conflicts_nodup fun _ => .inl, c, h.entry, rfl, rfl, h.rule⟩
    rw [if_neg hin] at houtcome
    rw [← hvalues, ← hshadow, houtcome]

/-- A binding whose value goes from one side to the other. -/
theorem copy (h : Next k w₀ path done pending c r b index w) (ht : ∀ s, k.rules.UniqueTypes s)
    (hu : ∀ s, k.rules.UniqueAttributes s) {source : Side}
    (hv : b.verdict .twoWay (c.shadow? index) (w.values c.elements b) = .copy source) {g' : Graph}
    (hw : (w.graphs.on source.other).Rewrites g' (c.elements.on source.other)
      (·.setValue (b.attributes.on source.other)
        ((b.copied (w.values c.elements b) source).on source.other))) :
    let w' : State := { w with
      graphs := w.graphs.put source.other g'
      pairs := w.pairs.recordShadow c.id index (b.copied (w.values c.elements b) source)
      report := { w.report with attributesUpdated := w.report.attributesUpdated + 1 } }
    Steady k w₀ (c.id :: path) done pending w' ∧ Stands k w' c.id r c.elements := by
  intro w'
  obtain ⟨hbefore, hshadow⟩ := h.untouched ht hu
  have hverdict : verdict w₀ c (b, index) = .copy source := (h.verdict_eq ht hu).trans hv
  obtain ⟨hmem, hname⟩ := RuleSet.mem_of_rule? h.rule
  let values := b.copied (w.values c.elements b) source
  let c' := { c with shadows := c.shadows.insert index values }
  have hm' : c' ∈ w'.pairs.entries := Correspondences.mem_recordShadow_self _ _ h.entry
  have hnames := Store.Names.of_entry h.steady.consistent h.entry (h.steady.alive c h.entry) h.rule
  have hact : Act k .twoWay (· = c.id) w.store w'.store :=
    .copy rfl hnames (hname ▸ h.rule) h.numbered (mem_authorities source) hw
  have hb : w'.store.Anchored := by
    obtain ⟨a, ha, hanchor⟩ := h.steady.anchored
    obtain ⟨a', ha', hcore⟩ :=
      (Correspondences.Touches.recordShadow _ c.id index values).kept a ha
    exact ⟨a', ha', (Correspondence.isAnchor_eq_of_core hcore).trans hanchor⟩
  -- the element that is written and the one that is read
  have hwritten (name : AttributeName) :
      (w'.graphs.on source.other).reading (c.elements.on source.other) name =
      if name = b.attributes.on source.other then values.on source.other
      else (w.graphs.on source.other).reading (c.elements.on source.other) name := by
    rw [Sided.on_put_self, hw.reading_setValue (h.steady.alive c h.entry source.other)]
    simp [values]
  have hread (x : ElementId) (name : AttributeName) : (w'.graphs.on source).reading x name =
      (w.graphs.on source).reading x name := by
    rw [Sided.on_put_of_ne _ _ source.ne_other]
  have hvalues : w'.values c.elements b = values := by
    refine Sided.ext_on source ?_ ?_
    · rw [State.values_on, hread, ← State.values_on]
      exact (Sided.on_put_of_ne _ _ source.ne_other).symm
    · rw [State.values_on, hwritten, if_pos rfl]
  refine ⟨h.bind ht (.single hact) hb rfl hm' rfl ?_ (fun i he => Dict.get?_insert_of_ne _ _ he) ?_
    ⟨?_, fun hc => ?_⟩ (fun _ hx => hx) h.steady.conflicts_nodup fun _ => .inl, c', hm', rfl,
      rfl, h.rule⟩
  · intro bi hbi hne
    refine Sided.ext_on source ?_ ?_
    · rw [State.values_on, hread, State.values_on]
    · rw [State.values_on, hwritten, if_neg, State.values_on]
      exact fun he => hne (Rule.eq_of_attribute (hu source.other r hmem) hbi h.numbered he)
  · intro s x name
    rcases source.eq_or_eq_other s with rfl | rfl
    · exact .inl (hread x name)
    · by_cases hwhere : c.element source.other = x ∧ b.attributes.on source.other = name
      · exact .inr ⟨hwhere.1, hwhere.2, by rw [hverdict, Side.other_other]⟩
      · left
        rw [Sided.on_put_self, hw.reading_setValue (h.steady.alive c h.entry source.other), if_neg]
        exact fun he => hwhere ⟨he.1.symm, he.2.symm⟩
  · have hshadow' : c'.shadow? index = some values := Dict.get?_insert_self _ _ _
    have hel : c'.elements = c.elements := rfl
    rw [hel, hvalues, hshadow', ← hbefore, ← hshadow, Binding.outcome_of_copy hv]
  · have hc' : verdict w₀ c (b, index) = .conflict := hc
    rw [hverdict] at hc'
    cases hc'

/-- A binding that is in conflict. -/
theorem conflict (h : Next k w₀ path done pending c r b index w)
    (ht : ∀ s, k.rules.UniqueTypes s) (hu : ∀ s, k.rules.UniqueAttributes s)
    (hv : b.verdict .twoWay (c.shadow? index) (w.values c.elements b) = .conflict) :
    Steady k w₀ (c.id :: path) done pending
      { w with report := w.report.addConflict (w.conflict c.rule c.id c.elements b) } := by
  obtain ⟨hvalues, hshadow⟩ := h.untouched ht hu
  have hverdict : verdict w₀ c (b, index) = .conflict := (h.verdict_eq ht hu).trans hv
  obtain ⟨hmem, hname⟩ := RuleSet.mem_of_rule? h.rule
  let x := w.conflict c.rule c.id c.elements b
  have hx₀ : x = w₀.conflict c.rule c.id c.elements b := by
    simp only [x, State.conflict, hvalues]
  -- what is reported for this binding already is the same conflict
  have hsame : ∀ y ∈ w.report.conflicts, y.correspondence = c.id →
      y.attributes = b.attributes → y = x := by
    intro y hy hcorr hattr
    obtain ⟨a, ha, bi, hbi, _, rfl⟩ := h.steady.since.reported y hy
    obtain rfl := h.steady.eq_of_id ha h.entry hcorr
    have he : bi = (b, index) :=
      Rule.eq_of_attribute (s := .left) (hu .left r hmem) (hbi.mem_numbered h.rule) h.numbered
      (congrArg (·.on .left) hattr)
    rw [he, hx₀]
  have hconflicts : (w.report.addConflict x).conflicts = w.report.conflicts ∧
      x ∈ w.report.conflicts ∨
      (w.report.addConflict x).conflicts = w.report.conflicts ++ [x] ∧
      x ∉ w.report.conflicts := by
    unfold Report.addConflict
    split
    · rename_i hany
      obtain ⟨y, hy, hkey⟩ := List.any_eq_true.mp hany
      obtain ⟨hcorr, hattr⟩ : y.correspondence = x.correspondence ∧
          y.attributes = x.attributes := by simpa using hkey
      exact .inl ⟨rfl, hsame y hy hcorr hattr ▸ hy⟩
    · rename_i hany
      refine .inr ⟨rfl, fun hx => hany (List.any_eq_true.mpr ⟨x, hx, by simp⟩)⟩
  have hmemx (y : Conflict) :
      y ∈ (w.report.addConflict x).conflicts ↔ y ∈ w.report.conflicts ∨ y = x := by
    rcases hconflicts with ⟨he, hx⟩ | ⟨he, _⟩ <;> rw [he]
    · exact ⟨.inl, fun hy => hy.elim id fun hy => hy ▸ hx⟩
    · simp
  refine h.bind ht .refl h.steady.anchored rfl h.entry rfl (fun _ _ _ => rfl) (fun _ _ => rfl)
    (fun _ _ _ => .inl rfl) ⟨?_, fun _ => ?_⟩ (fun y hy => (hmemx y).mpr (.inl hy)) ?_
    fun y hy => ?_
  · rw [← hvalues, ← hshadow, Binding.outcome_of_conflict hv]
    rfl
  · exact (hmemx _).mpr (.inr hx₀.symm)
  · rcases hconflicts with ⟨he, _⟩ | ⟨he, hnew⟩
    · exact he ▸ h.steady.conflicts_nodup
    · exact he ▸ List.nodup_append.mpr
        ⟨h.steady.conflicts_nodup, List.nodup_singleton x, fun y hy z hz => by
          rw [List.mem_singleton.mp hz]
          exact fun e => hnew (e ▸ hy)⟩
  · exact ((hmemx y).mp hy).imp_right fun hy => ⟨hverdict, hy.trans hx₀⟩

end Next

theorem Steady.applyBinding (h : Steady k w₀ (id :: path) done ((b, index) :: pending) w)
    (ht : ∀ s, k.rules.UniqueTypes s) (hu : ∀ s, k.rules.UniqueAttributes s)
    (hs : Stands k w id r pair) (hbi : (b, index) ∈ r.numbered)
    (hfresh : (b, index) ∉ pending) :
    wp (applyBinding .twoWay r.name id pair b index)
      (fun _ w' => Steady k w₀ (id :: path) done pending w' ∧ Stands k w' id r pair)
      (fun _ _ => True) w := by
  obtain ⟨c, hm, rfl, rfl, hr⟩ := hs
  have hnext : Next k w₀ path done pending c r b index w := ⟨h, hm, hr, hbi, hfresh⟩
  have hname := (RuleSet.mem_of_rule? hr).2
  have hshadow := State.shadow?_of_mem h.consistent.listed hm index
  apply wp_applyBinding
  · intro _ _
    trivial
  · intro _ inStep hv
    obtain rfl := Binding.inStep_of_verdict hv
    exact hnext.keep ht hu (hshadow ▸ hv)
  · intro _ hv
    rw [hname]
    exact ⟨hnext.conflict ht hu (hshadow ▸ hv), c, hm, rfl, rfl, hr⟩
  · intro _ source hv g' hw
    exact hnext.copy ht hu (hshadow ▸ hv) hw

theorem Steady.bindings (h : Steady k w₀ (id :: path) done pending w)
    (ht : ∀ s, k.rules.UniqueTypes s) (hu : ∀ s, k.rules.UniqueAttributes s)
    (hs : Stands k w id r pair) (hsub : ∀ bi ∈ pending, bi ∈ r.numbered)
    (hn : pending.Nodup) :
    wp (pending.forM fun (b, index) => do let _ ← Walk.applyBinding .twoWay r.name id pair b index)
      (fun _ w' => Steady k w₀ (id :: path) done [] w' ∧ Stands k w' id r pair)
      (fun _ _ => True) w := by
  induction pending generalizing w with
  | nil => exact ⟨h, hs⟩
  | cons bi pending ih =>
    obtain ⟨hfresh, hn'⟩ := List.nodup_cons.mp hn
    rw [wp_forM_cons, wp_bind]
    refine wp_imp (h.applyBinding ht hu hs (hsub bi (by simp)) hfresh) ?_
    intro _ w₁ h₁
    exact ih h₁.1 h₁.2 (fun bi' hbi' => hsub bi' (by simp [hbi'])) hn'

end Merge

end GraphSync
