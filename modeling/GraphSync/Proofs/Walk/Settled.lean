import GraphSync.Proofs.Rule.Settled
import GraphSync.Proofs.Session.Reachable
import GraphSync.Proofs.Walk.Operations

namespace GraphSync.Walk

variable {w w' : State} {c : Correspondence} {d : Direction} {rule : RuleName} {b : Binding}
  {index : Nat} {o : BindingOutcome}

/-- What one application makes of a state, by what the binding calls for. -/
inductive Binds (d : Direction) (rule : RuleName) (c : Correspondence) (b : Binding) (index : Nat)
    (w : State) : BindingOutcome → State → Prop where
  | keep (inStep : Bool)
    (verdict : b.verdict d (w.shadow? c.id index) (w.values c.elements b) = .keep inStep) :
    Binds d rule c b index w .unchanged
      (if inStep then { w with pairs := w.pairs.recordShadow c.id index (w.values c.elements b) }
        else w)
  | conflict (verdict : b.verdict d (w.shadow? c.id index) (w.values c.elements b) = .conflict) :
    Binds d rule c b index w .conflict
      { w with report := w.report.addConflict (w.conflict rule c.id c.elements b) }
  | copy {w' : State} {g' : Graph} (source : Side)
    (verdict : b.verdict d (w.shadow? c.id index) (w.values c.elements b) = .copy source)
    (graphs : w'.graphs = w.graphs.put source.other g')
    (write : (w.graphs.on source.other).Rewrites g' (c.elements.on source.other)
      (·.setValue (b.attributes.on source.other)
        ((b.copied (w.values c.elements b) source).on source.other)))
    (pairs : w'.pairs = w.pairs.recordShadow c.id index (b.copied (w.values c.elements b) source)) :
    Binds d rule c b index w .written w'

theorem binds_applyBinding (live : ∀ s, (w.graphs.on s).contains (c.element s) = true)
    (d : Direction) (rule : RuleName) (b : Binding) (index : Nat) :
    ∃ o w', exec (applyBinding d rule c.id c.elements b index) w = (.ok o, w') ∧
      Binds d rule c b index w o w' := by
  have hrun : wp (applyBinding d rule c.id c.elements b index) (Binds d rule c b index w)
      (fun _ _ => False) w := by
    apply wp_applyBinding
    · exact fun s hdead => Bool.noConfusion (hdead.symm.trans (live s))
    · exact fun _ inStep hv => .keep inStep hv
    · exact fun _ hv => .conflict hv
    · exact fun _ source hv g' hw => .copy source hv rfl hw rfl
  unfold wp at hrun
  cases hexec : exec (applyBinding d rule c.id c.elements b index) w with
  | mk r w' =>
    rw [hexec] at hrun
    cases r with
    | ok o => exact ⟨o, w', rfl, hrun⟩
    | error e => exact hrun.elim

/-- Values that are to be left alone, and are remembered if they should be, are left alone to the
last record. -/
theorem applyBinding_of_keep (live : ∀ s, (w.graphs.on s).contains (c.element s) = true)
    {shadow? : Option Shadow} {values : Sided Value} {inStep : Bool}
    (hs : w.shadow? c.id index = shadow?) (hvalues : w.values c.elements b = values)
    (hv : b.verdict d shadow? values = .keep inStep)
    (hr : inStep = true → w.pairs.recordShadow c.id index values = w.pairs) :
    exec (applyBinding d rule c.id c.elements b index) w = (.ok .unchanged, w) := by
  subst hs hvalues
  obtain ⟨o, w', hexec, hb⟩ := binds_applyBinding live d rule b index
  rw [hexec]
  cases hb with
  | keep inStep' hv' =>
    obtain rfl := Verdict.keep.inj (hv'.symm.trans hv)
    split
    · rename_i hin
      rw [hr hin]
    · rfl
  | conflict hv' => cases hv'.symm.trans hv
  | copy source hv' => cases hv'.symm.trans hv

theorem shadow?_of_recordShadow {t : Correspondences} {values : Shadow} {a : Correspondence}
    (ha : a ∈ (t.recordShadow c.id index values).entries) (hi : a.id = c.id) :
    a.shadow? index = some values := by
  obtain ⟨a₀, _, hcore, _, hself⟩ := Correspondences.mem_recordShadow ha
  have hid : a₀.id = c.id := (Correspondence.id_eq_of_core hcore).symm.trans hi
  rw [hself hid]
  exact Dict.get?_insert_self _ _ _

/-- What is remembered of a recorded pair. -/
theorem shadow?_recordShadow (hc : c ∈ w.pairs.entries) (values : Shadow)
    (hp : w'.pairs = w.pairs.recordShadow c.id index values) :
    w'.shadow? c.id index = some values := by
  have hmem := Correspondences.mem_recordShadow_self index values hc
  cases hg : (w.pairs.recordShadow c.id index values).get? c.id with
  | none =>
    have hnot := List.find?_eq_none.mp hg _ hmem
    simp at hnot
  | some a =>
    have hid : a.id = c.id := by simpa using List.find?_some hg
    rw [State.shadow?, hp, hg]
    exact shadow?_of_recordShadow (List.mem_of_find?_eq_some hg) hid

/-- Values that were remembered are remembered again to no effect. -/
theorem recordShadow_again {values : Shadow}
    (hp : w'.pairs = w.pairs.recordShadow c.id index values) :
    w'.pairs.recordShadow c.id index values = w'.pairs := by
  refine Correspondences.recordShadow_eq_self fun a ha hi => ?_
  rw [hp] at ha
  exact shadow?_of_recordShadow ha hi

theorem values_copied (live : ∀ s, (w.graphs.on s).contains (c.element s) = true) {source : Side}
    {g' : Graph} (hw : (w.graphs.on source.other).Rewrites g' (c.elements.on source.other)
      (·.setValue (b.attributes.on source.other)
        ((b.copied (w.values c.elements b) source).on source.other)))
    (hg : w'.graphs = w.graphs.put source.other g') :
    w'.values c.elements b = b.copied (w.values c.elements b) source := by
  refine Sided.ext_on source ?_ ?_
  · rw [State.values_on, hg, Sided.on_put_other_self, Binding.copied, Sided.on_put_other_self,
      State.values_on]
  · rw [State.values_on, hg, Sided.on_put_self, hw.reading_setValue (live source.other),
      if_pos ⟨rfl, rfl⟩]

theorem addConflict_again (r : Report) (x : Conflict) :
    (r.addConflict x).addConflict x = r.addConflict x := by
  have hany : (r.addConflict x).conflicts.any
      (fun k => k.correspondence = x.correspondence ∧ k.attributes = x.attributes) = true := by
    unfold Report.addConflict
    split
    · assumption
    · simp
  rw [Report.addConflict, if_pos hany]

theorem applyBinding_again_keep (live : ∀ s, (w.graphs.on s).contains (c.element s) = true)
    (hc : c ∈ w.pairs.entries) {inStep : Bool}
    (hv : b.verdict d (w.shadow? c.id index) (w.values c.elements b) = .keep inStep) :
    let w' := if inStep then
      { w with pairs := w.pairs.recordShadow c.id index (w.values c.elements b) } else w
    exec (applyBinding d rule c.id c.elements b index) w' = (.ok .unchanged, w') := by
  have hagain := Binding.verdict_keep_again hv
  cases inStep with
  | false => exact applyBinding_of_keep live rfl rfl hv fun hin => by cases hin
  | true => exact applyBinding_of_keep live (shadow?_recordShadow hc _ rfl) rfl hagain fun _ =>
    recordShadow_again rfl

theorem applyBinding_again_conflict (live : ∀ s, (w.graphs.on s).contains (c.element s) = true)
    (hv : b.verdict d (w.shadow? c.id index) (w.values c.elements b) = .conflict) :
    let w' : State := { w with report := w.report.addConflict (w.conflict rule c.id c.elements b) }
    exec (applyBinding d rule c.id c.elements b index) w' = (.ok .conflict, w') := by
  intro w'
  have hlive : ∀ s, (w'.graphs.on s).contains (c.element s) = true := live
  have hv' : b.verdict d (w'.shadow? c.id index) (w'.values c.elements b) = .conflict := hv
  obtain ⟨o, w'', hexec, hb⟩ := binds_applyBinding hlive d rule b index
  rw [hexec]
  cases hb with
  | keep inStep hv'' => cases hv''.symm.trans hv'
  | conflict =>
    have hreport : w'.report.addConflict (w'.conflict rule c.id c.elements b) = w'.report :=
      addConflict_again _ _
    rw [hreport]
  | copy source hv'' => cases hv''.symm.trans hv'

/-- A binding is settled by one application to a pair of live elements, in any direction and
whatever is remembered: the next one writes nothing, and it is a conflict only if this one was, and
was reported then. Nothing at all changes any more. A binding goes on only where its first
application has written, and one of the values that it compares is a NaN. -/
theorem applyBinding_twice (live : ∀ s, (w.graphs.on s).contains (c.element s) = true)
    (recorded : w.pairs.get? c.id = some c) (d : Direction) (rule : RuleName) (b : Binding)
    (index : Nat) :
    let apply := applyBinding d rule c.id c.elements b index
    ∃ o w', exec apply w = (.ok o, w') ∧
      (¬ (o = .written ∧ b.Restless (w'.values c.elements b) d) →
        exec apply w' = (.ok (if o = .conflict then .conflict else .unchanged), w')) ∧
      (o = .written ∧ b.Restless (w'.values c.elements b) d →
        ∃ o' w'', exec apply w' = (.ok o', w'') ∧ o' ≠ .unchanged) := by
  intro apply
  have hc : c ∈ w.pairs.entries := List.mem_of_find?_eq_some recorded
  obtain ⟨o, w', hexec, hb⟩ := binds_applyBinding live d rule b index
  refine ⟨o, w', hexec, ?_⟩
  cases hb with
  | keep inStep hv =>
    exact ⟨fun _ => applyBinding_again_keep live hc hv, fun hwritten => by cases hwritten.1⟩
  | conflict hv =>
    exact ⟨fun _ => applyBinding_again_conflict live hv, fun hwritten => by cases hwritten.1⟩
  | copy source hv hgraphs hw hpairs =>
    have hvalues := values_copied live hw hgraphs
    have hshadow := shadow?_recordShadow hc _ hpairs
    have hlive (s : Side) : (w'.graphs.on s).contains (c.element s) = true := by
      rw [hgraphs]
      rcases source.other.eq_or_eq_other s with rfl | rfl
      · rw [Sided.on_put_self]
        exact (hw.contains _).trans (live source.other)
      · rw [Sided.on_put_other]
        exact live source.other.other
    rw [hvalues]
    constructor
    · intro hcalm
      have hkeep := Binding.verdict_copy_again hv fun hrestless => hcalm ⟨rfl, hrestless⟩
      exact applyBinding_of_keep hlive hshadow hvalues hkeep fun _ => recordShadow_again hpairs
    · intro hwritten
      obtain ⟨o', w'', hexec', hb'⟩ := binds_applyBinding hlive d rule b index
      refine ⟨o', w'', hexec', fun hunchanged => ?_⟩
      subst hunchanged
      cases hb' with
      | keep inStep hv' =>
        rw [hshadow, hvalues] at hv'
        exact Binding.verdict_of_restless hv hwritten.2 inStep hv'

/-- A name in conflict is reported again, and the report stays as it is. -/
theorem applyBinding_twice_disputed :
    let w := Sample.disputed.walkState
    let c : Correspondence :=
      { id := ⟨1⟩
        rule := "StateToPlace"
        elements := ⟨⟨1⟩, ⟨1⟩⟩
        createdIn := .twoWay
        shadows := Dict.insert ∅ 0 ⟨.text "s", .text "s"⟩ }
    let apply :=
      applyBinding .twoWay "StateToPlace" c.id c.elements { attributes := ⟨"name", "name"⟩ } 0
    (∀ s, (w.graphs.on s).contains (c.element s) = true) ∧ w.pairs.get? c.id = some c ∧
      (exec apply w).1 = .ok .conflict ∧
      exec apply (exec apply w).2 = (.ok .conflict, (exec apply w).2) := by
  intro w c apply
  have hlive : ∀ s, (w.graphs.on s).contains (c.element s) = true :=
    Side.forall_iff.mpr (by decide +kernel)
  have hrecorded : w.pairs.get? c.id = some c := by decide +kernel
  have hfirst : (exec apply w).1 = .ok .conflict := by decide +kernel
  refine ⟨hlive, hrecorded, hfirst, ?_⟩
  obtain ⟨o, w', hexec, hsettled, _⟩ :=
    applyBinding_twice hlive hrecorded .twoWay "StateToPlace"
    { attributes := ⟨"name", "name"⟩ } 0
  have hexec : exec apply w = (.ok o, w') := hexec
  rw [hexec] at hfirst ⊢
  cases hfirst
  exact hsettled fun hwritten => by cases hwritten.1

/-- A NaN is written again by a forced direction; in a two-way one it is a conflict as soon as it
has been copied. -/
theorem applyBinding_unnamed :
    let again (d : Direction) : Except Error BindingOutcome × Except Error BindingOutcome :=
      let apply :=
        applyBinding d "NetToNet" ⟨0⟩ ⟨⟨0⟩, ⟨0⟩⟩
          { attributes := ⟨"name", "name"⟩ } 0
      let first := exec apply (Sample.unnamed d).walkState
      (first.1, (exec apply first.2).1)
    again (.oneWay .left true) = (.ok .written, .ok .written) ∧
    again .twoWay = (.ok .written, .ok .conflict) := by
  decide +kernel

end GraphSync.Walk
