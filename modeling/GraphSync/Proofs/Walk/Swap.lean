import GraphSync.Proofs.Walk.Operations
import GraphSync.Proofs.Walk.Parallel
import GraphSync.Proofs.Walk.Release

namespace GraphSync

namespace Walk

variable {w : State} {rules : RuleSet} {d : Direction} {s : Side}

theorem State.Keyed.remove (h : w.Keyed) (id : CorrespondenceId) (report : Report) :
    State.Keyed { w with pairs := w.pairs.remove id, report } :=
  fun s => (h s).subset (List.filter_subset_self _)

theorem State.Keyed.recordShadow (h : w.Keyed) (id : CorrespondenceId) (index : Nat)
    (values : Shadow) : State.Keyed { w with pairs := w.pairs.recordShadow id index values } :=
  fun s => (h s).modify (Correspondences.preserving_remember index values) id

theorem parallel_unlink {Q : Unit → Unit → State → Prop} {owner target : ElementId}
    {role : RoleName} (h : ∀ report, Q () ()
      { w with
        graphs := w.graphs.put s ((w.graphs.on s).dropReference owner role target)
        report }) :
    parallel (unlink s owner role target) (unlink s.other owner role target) Q w := by
  refine parallel_bind (parallel_onGraph fun b g he => ?_)
  rw [Graph.removeReference_eq] at he
  split at he <;> cases he
  exact parallel_ite Iff.rfl (fun _ => parallel_note (h _)) fun _ => parallel_pure (h _)

theorem parallel_unlinkWalked {I : State → Prop} {e : ElementId}
    (drop : ∀ w owner role report, I w →
      I { w with graphs := w.graphs.put s ((w.graphs.on s).dropReference owner role e), report })
    (h : I w) :
    parallel (unlinkWalked rules s e) (unlinkWalked rules.swap s.other e) (fun _ _ => I) w := by
  refine parallel_bind (parallel_graph (parallel_forM (R := Eq) (List.forall₂_refl _) ?_ h))
  rintro ⟨owner, role⟩ _ rfl w hw
  refine parallel_bind (parallel_pairs (parallel_ite ?_ (fun _ => ?_) fun _ => parallel_pure hw))
  · rw [Correspondences.walksRole_swap]
  · exact parallel_unlink fun report => drop w owner role report hw

theorem deletesFrom_swap (d : Direction) (s : Side) :
    d.swap.deletesFrom s.other = d.deletesFrom s := by
  cases d with
  | oneWay source forced => cases source <;> cases s <;> rfl
  | twoWay => rfl

/-- A pair that has lost both its elements is just dropped. -/
theorem exec_releaseLost_of_dead {c : Correspondence}
    (h : (w.graphs.on s.other).contains (c.element s.other) = false) :
    exec (releaseLost rules d c s) w = exec (releasePair c.id) w := by
  have hgraph : exec (graph s.other) w = (.ok (w.graphs.on s.other), w) := rfl
  rw [releaseLost, exec_bind, hgraph]
  simp only [h, Bool.and_false, Bool.false_eq_true, if_false]

theorem parallel_releaseLost {I : State → Prop} {c : Correspondence} {s' : Side}
    (drop : ∀ w s owner role target report, I w →
      I { w with graphs :=
        w.graphs.put s ((w.graphs.on s).dropReference owner role target), report })
    (release : ∀ w report, I w → I { w with pairs := w.pairs.remove c.id, report })
    (hs : s' = s.other ∨ ∀ t, (w.graphs.on t).contains (c.element t) = false) (h : I w) :
    parallel (releaseLost rules d c s) (releaseLost rules.swap d.swap c.swap s')
      (fun _ _ => I) w := by
  rcases hs with rfl | hdead
  · have helement : c.swap.element s.other.other = c.element s.other :=
      c.element_swap_other s.other
    unfold releaseLost
    refine parallel_bind (parallel_graph ?_)
    refine parallel_ite ?_ (fun _ => ?_) fun _ => ?_
    · rw [deletesFrom_swap, helement]
    · rw [helement]
      refine parallel_bind
        (parallel_mono (parallel_unlinkWalked (fun w owner role => drop w _ owner role _) h) ?_)
      exact fun _ _ w₁ h₁ => parallel_releasePair fun report => release w₁ report h₁
    · exact parallel_releasePair fun report => release w report h
  · have hdead' : (w.swap.graphs.on s'.other).contains (c.swap.element s'.other) = false := by
      simpa [State.swap] using hdead s'
    unfold parallel
    rw [exec_releaseLost_of_dead (hdead s.other), exec_releaseLost_of_dead hdead']
    exact parallel_releasePair fun report => release w report h

/-- After the exchange a pair has lost an element on the other side, or it has lost both. -/
theorem lostOn?_swap (c : Correspondence) (graphs : Sided Graph) :
    (c.lostOn? graphs = none ∧ c.swap.lostOn? graphs.swap = none) ∨
    ∃ s s', c.lostOn? graphs = some s ∧ c.swap.lostOn? graphs.swap = some s' ∧
      (s' = s.other ∨ ∀ t, (graphs.on t).contains (c.element t) = false) := by
  have hleft : (graphs.swap.on .left).contains (c.swap.element .left) = (graphs.on .right).contains
      (c.element .right) := by
    simp [Side.other]
  have hright : (graphs.swap.on .right).contains (c.swap.element .right) =
      (graphs.on .left).contains (c.element .left) := by
    simp [Side.other]
  simp only [Correspondence.lostOn?, Side.all, List.find?_cons, List.find?_nil, hleft, hright]
  cases hl : (graphs.on .left).contains (c.element .left) <;> cases hr :
    (graphs.on .right).contains (c.element .right)
  · exact .inr ⟨.left, .left, rfl, rfl, .inr (Side.forall_iff.mpr ⟨hl, hr⟩)⟩
  · exact .inr ⟨.left, .right, rfl, rfl, .inl rfl⟩
  · exact .inr ⟨.right, .left, rfl, rfl, .inl rfl⟩
  · exact .inl ⟨rfl, rfl⟩

theorem State.lost_swap (w : State) : List.Forall₂ (fun p p' => p'.1 = p.1.swap ∧
    (p'.2 = p.2.other ∨ ∀ t, (w.graphs.on t).contains (p.1.element t) = false))
    w.lost w.swap.lost := by
  have hmembers : w.swap.pairs.members = w.pairs.members.map Correspondence.swap :=
    w.pairs.members_swap
  simp only [State.lost, hmembers, List.filterMap_map]
  induction w.pairs.members with
  | nil => exact .nil
  | cons c cs ih =>
    rcases lostOn?_swap c w.graphs with ⟨hn, hn'⟩ | ⟨s, s', hs, hs', hside⟩
    · simp only [State.swap] at ih
      simpa [State.swap, hn, hn'] using ih
    · simp only [State.swap] at ih
      simpa [State.swap, hs, hs', hside] using ih

theorem parallel_releaseAllLost (h : w.Keyed) :
    parallel (releaseAllLost rules d) (releaseAllLost rules.swap d.swap)
      (fun _ _ w' => w'.Keyed) w := by
  let I (w' : State) : Prop :=
    w'.Keyed ∧ ∀ t x, (w'.graphs.on t).contains x = (w.graphs.on t).contains x
  have drop (w' : State) (s : Side) (owner : ElementId) (role : RoleName) (target : ElementId)
      (report : Report) (h' : I w') :
      I { w' with
        graphs := w'.graphs.put s ((w'.graphs.on s).dropReference owner role target)
        report } := by
    refine ⟨h'.1, fun t x => ?_⟩
    rw [← h'.2]
    by_cases ht : t = s
    · subst t
      rw [Sided.on_put_self]
      exact Graph.contains_dropReference _ owner role target x
    · rw [Sided.on_put_of_ne _ _ ht]
  refine parallel_bind
    (parallel_get (parallel_mono (parallel_forM (I := I) w.lost_swap ?_ ⟨h, fun _ _ => rfl⟩) ?_))
  · rintro ⟨c, s⟩ ⟨_, s'⟩ ⟨rfl, hs⟩ w' h'
    refine parallel_releaseLost drop
      (fun w₁ report h₁ => ⟨h₁.1.remove c.id report, h₁.2⟩) ?_ h'
    exact hs.imp_right fun hdead t => (h'.2 t _).trans (hdead t)
  · exact fun _ _ w' h' => h'.1

theorem parallel_applyBinding {source : Side} {forced : Bool} {rule : RuleName}
    {id : CorrespondenceId} {pair : Sided ElementId} {b : Binding} {index : Nat} (h : w.Keyed) :
    parallel (applyBinding (.oneWay source forced) rule id pair b index)
      (applyBinding (.oneWay source.other forced) rule id pair.swap b.swap index)
      (fun o o' w' => o' = o ∧ w'.Keyed) w := by
  unfold applyBinding
  refine parallel_bind (parallel_get ?_)
  refine parallel_liftGraph_comm (fun _ he => ⟨_, Graph.value_error he⟩)
    (fun _ he => ⟨_, Graph.value_error he⟩) fun left right _ _ => ?_
  have hverdict (shadow? shadow?' : Option Shadow) :
      b.swap.verdict (.oneWay source.other forced) shadow?' ⟨right, left⟩ =
        (b.verdict (.oneWay source forced) shadow? ⟨left, right⟩).swap :=
    b.verdict_swap source forced shadow? shadow?' ⟨left, right⟩
  dsimp only
  rw [hverdict ((w.pairs.get? id).bind (·.shadow? index))]
  cases hv :
    b.verdict (.oneWay source forced) ((w.pairs.get? id).bind (·.shadow? index))
      ⟨left, right⟩ with
  | keep inStep =>
    refine parallel_ite Iff.rfl (fun _ => ?_) fun _ => parallel_pure ⟨rfl, h⟩
    exact parallel_bind (parallel_recordShadow (parallel_pure ⟨rfl, h.recordShadow id index _⟩))
  | conflict => exact absurd hv (b.verdict_ne_conflict source forced _ _)
  | copy t =>
    let updated := b.copied ⟨left, right⟩ t
    have hupdated : b.swap.copied ⟨right, left⟩ t.other = updated.swap := by
      have hcopied : b.swap.copied (Sided.swap ⟨left, right⟩) t.other =
          (b.copied ⟨left, right⟩ t.other.other).swap :=
        b.copied_swap ⟨left, right⟩ t.other
      rwa [Side.other_other] at hcopied
    have hwrite :
        (fun g : Graph =>
          g.setValue (pair.swap.on t.other.other) (b.swap.attributes.on t.other.other)
            (updated.swap.on t.other.other)) = fun g =>
              g.setValue (pair.on t.other) (b.attributes.on t.other)
        (updated.on t.other) := by
      simp [Binding.swap]
    simp only [Verdict.swap, hupdated, hwrite]
    refine parallel_bind (parallel_onGraph fun _ g _ => ?_)
    refine parallel_bind (parallel_note ?_)
    refine parallel_bind (parallel_recordShadow ?_)
    exact parallel_pure ⟨rfl, h.recordShadow id index updated⟩

theorem parallel_link {auth : Side} {owner target : ElementId} {role : RoleName}
    {earlier later : List ElementId} (h : w.Keyed) :
    parallel (link auth owner role target earlier later)
      (link auth.other owner role target earlier later) (fun _ _ w' => w'.Keyed) w := by
  unfold link
  refine parallel_bind (parallel_graph ?_)
  refine parallel_bind (parallel_liftGraph fun present _ => ?_)
  refine parallel_ite Iff.rfl (fun _ => parallel_pure h) fun _ => ?_
  refine parallel_bind (parallel_pairs ?_)
  rw [Correspondences.slot_swap]
  refine parallel_bind (parallel_onGraph fun _ g _ => ?_)
  exact parallel_note h

theorem parallel_create {child : Child} {auth : Side} {member : ElementId} (h : w.Keyed) :
    parallel (create rules child auth member) (create rules.swap child.swap auth.other member)
      (fun made made' w' => made' = (made.1.swap, made.2) ∧ w'.Keyed) w := by
  have make (r : Rule) (w : State) (h : w.Keyed) :
      parallel (do
          let created ← onGraph auth.other fun g => .ok (g.add (r.types.on auth.other))
          note fun report => { report with elementsCreated := report.elementsCreated + 1 }
          return (r, created))
        (do
          let created ← onGraph auth.other.other fun g =>
            .ok (g.add (r.swap.types.on auth.other.other))
          note fun report => { report with elementsCreated := report.elementsCreated + 1 }
          return (r.swap, created))
        (fun made made' w' => made' = (made.1.swap, made.2) ∧ w'.Keyed) w := by
    have htype : r.swap.types.on auth.other.other = r.types.on auth.other := by simp [Rule.swap]
    rw [htype]
    refine parallel_bind (parallel_onGraph fun created g _ => ?_)
    refine parallel_bind (parallel_note ?_)
    exact parallel_pure ⟨rfl, h⟩
  unfold create
  refine parallel_bind (parallel_graph ?_)
  refine parallel_bind (parallel_liftGraph fun kind _ => ?_)
  have htypes : auth.other.arrange kind (child.swap.types.on auth.other.other) =
      (auth.arrange kind (child.types.on auth.other)).swap := by simp [Child.swap]
  rw [htypes]
  refine parallel_bind (parallel_ruleFor fun r _ => ?_)
  refine parallel_bind (parallel_pairs ?_)
  have hstale : w.pairs.swap.lookup? r.swap.name auth.other member =
      (w.pairs.lookup? r.name auth member).map Correspondence.swap :=
        w.pairs.lookup?_swap r.name auth member
  rw [hstale]
  cases w.pairs.lookup? r.name auth member with
  | none => exact make r w h
  | some stale =>
    refine parallel_bind (parallel_releasePair fun report => ?_)
    exact make r _ (h.remove stale.id report)

theorem parallel_findOrCreate {child : Child} {auth : Side} {owner member : ElementId}
    (h : w.Keyed) :
    parallel (findOrCreate rules child auth owner member)
      (findOrCreate rules.swap child.swap auth.other owner member)
      (fun found found' w' => found' = (found.1.swap, found.2) ∧ w'.Keyed) w := by
  unfold findOrCreate
  dsimp only
  rw [child.roles_swap auth.other]
  refine parallel_bind (parallel_graph ?_)
  refine parallel_bind (parallel_liftGraph fun present _ => ?_)
  refine parallel_bind (parallel_pairs ?_)
  rw [Correspondences.counterpart?_swap]
  cases w.pairs.counterpart? rules child auth (w.graphs.on auth.other) present member with
  | none => exact parallel_create h
  | some c =>
    refine parallel_bind (parallel_rule fun r _ => parallel_pure ⟨?_, h⟩)
    simp

/-- Applying an exchanged rule to an exchanged pair is the same thing on the exchanged state. -/
def Twins (apply apply' : Apply) : Prop := ∀ rule id pair w, State.Keyed w →
  parallel (apply rule id pair) (apply' rule.swap id pair.swap) (fun _ _ w' => w'.Keyed) w

variable {apply apply' : Apply}

theorem parallel_enter {rule : Rule} {pair : Sided ElementId} (ha : Twins apply apply')
    (h : w.Keyed) :
    parallel (enter d apply rule pair) (enter d.swap apply' rule.swap pair.swap)
      (fun _ _ w' => w'.Keyed) w := by
  unfold enter
  refine parallel_bind (parallel_onPairs rule.name pair ?_)
  rcases Correspondences.obtain?_swap rule.name pair h d with ⟨o, t, he, he'⟩ | hrefused
  · refine .inl ⟨o, t, he, he', ?_⟩
    refine parallel_bind (parallel_countPair fun report => ?_)
    exact ha rule o.id pair _ fun s => (h s).obtain? he
  · exact .inr hrefused

theorem parallel_linkMember {child : Child} {auth : Side} {owner member : ElementId}
    {earlier later : List ElementId} (ha : Twins apply apply') (h : w.Keyed) :
    parallel (linkMember rules d apply child auth owner earlier member later)
      (linkMember rules.swap d.swap apply' child.swap auth.other owner earlier member later)
      (fun partner partner' w' => partner' = partner ∧ w'.Keyed) w := by
  unfold linkMember
  rw [child.roles_swap auth.other]
  refine parallel_bind (parallel_mono (parallel_findOrCreate h) ?_)
  rintro ⟨rule, partner⟩ _ w₁ ⟨rfl, h₁⟩
  refine parallel_bind (parallel_mono (parallel_link h₁) fun _ _ w₂ h₂ => ?_)
  dsimp only
  rw [← Sided.swap_arrange]
  refine parallel_bind (parallel_mono (parallel_enter ha h₂) fun _ _ w₃ h₃ => ?_)
  exact parallel_pure ⟨rfl, h₃⟩

theorem parallel_linkMembers {child : Child} {auth : Side} {owner : ElementId}
    {earlier members : List ElementId} (ha : Twins apply apply') (h : w.Keyed) :
    parallel (linkMembers rules d apply child auth owner earlier members)
      (linkMembers rules.swap d.swap apply' child.swap auth.other owner earlier members)
      (fun partners partners' w' => partners' = partners ∧ w'.Keyed) w := by
  induction members generalizing earlier w with
  | nil => exact parallel_pure ⟨rfl, h⟩
  | cons member later ih =>
    unfold linkMembers
    refine parallel_bind (parallel_mono (parallel_linkMember ha h) ?_)
    rintro partner _ w₁ ⟨rfl, h₁⟩
    refine parallel_bind (parallel_mono (ih h₁) ?_)
    rintro partners _ w₂ ⟨rfl, h₂⟩
    exact parallel_pure ⟨rfl, h₂⟩

theorem parallel_unlinkStale {child : Child} {auth : Side} {owner : ElementId}
    {partners : List ElementId} (h : w.Keyed) :
    parallel (unlinkStale child auth owner partners)
      (unlinkStale child.swap auth.other owner partners) (fun _ _ w' => w'.Keyed) w := by
  unfold unlinkStale
  dsimp only
  rw [child.roles_swap auth.other]
  refine parallel_bind (parallel_graph ?_)
  refine parallel_bind (parallel_liftGraph fun present _ => ?_)
  refine parallel_forM (R := Eq) (List.forall₂_refl _) ?_ h
  rintro e _ rfl w₁ h₁
  refine parallel_bind (parallel_pairs ?_)
  rw [Correspondences.partners_swap]
  refine parallel_ite Iff.rfl (fun _ => ?_) fun _ => parallel_pure h₁
  refine parallel_bind (parallel_onGraph fun _ g _ => ?_)
  exact parallel_note h₁

theorem parallel_syncRole {child : Child} {auth : Side} {pair : Sided ElementId}
    (ha : Twins apply apply') (h : w.Keyed) :
    parallel (syncRole rules d apply child auth pair)
      (syncRole rules.swap d.swap apply' child.swap auth.other pair.swap)
      (fun _ _ w' => w'.Keyed) w := by
  have hpair : pair.swap.on auth.other = pair.on auth := by simp
  have howner : pair.swap.on auth.other.other = pair.on auth.other := by simp
  have hforced : d.swap.isForced = d.isForced := by cases d <;> rfl
  unfold syncRole
  rw [child.roles_swap auth, hpair, howner, hforced]
  refine parallel_bind (parallel_graph ?_)
  refine parallel_bind (parallel_liftGraph fun members _ => ?_)
  refine parallel_bind (parallel_mono (parallel_linkMembers ha h) ?_)
  rintro partners _ w₁ ⟨rfl, h₁⟩
  exact parallel_ite Iff.rfl (fun _ => parallel_unlinkStale h₁) fun _ => parallel_pure h₁

variable {source : Side} {forced : Bool}

theorem parallel_applyParts {rule : Rule} {id : CorrespondenceId} {pair : Sided ElementId}
    (ha : Twins apply apply') (h : w.Keyed) :
    parallel (applyParts rules (.oneWay source forced) apply rule id pair)
      (applyParts rules.swap (.oneWay source.other forced) apply' rule.swap id pair.swap)
      (fun _ _ w' => w'.Keyed) w := by
  unfold applyParts
  rw [Rule.numbered_swap]
  refine parallel_bind
    (parallel_mono (parallel_forM (I := State.Keyed) (forall₂_map _ _) ?_ h) fun _ _ w₁ h₁ => ?_)
  · rintro ⟨b, index⟩ _ rfl w₁ h₁
    refine parallel_bind (parallel_mono (parallel_applyBinding h₁) ?_)
    rintro _ _ w₂ ⟨_, h₂⟩
    exact parallel_pure h₂
  · refine parallel_forM (I := State.Keyed) (forall₂_map Child.swap _) ?_ h₁
    rintro child _ rfl w₂ h₂
    refine parallel_bind
      (parallel_mono (parallel_syncRole (d := .oneWay source forced) ha h₂) fun _ _ w₃ h₃ => ?_)
    exact parallel_pure h₃

theorem twins_applyRule (rules : RuleSet) (source : Side) (forced : Bool) (fuel : Nat)
    (path : List CorrespondenceId) :
    Twins (applyRule rules (.oneWay source forced) fuel path)
      (applyRule rules.swap (.oneWay source.other forced) fuel path) := by
  induction fuel generalizing path with
  | zero => exact fun rule id pair w h => parallel_throw .tooDeep
  | succ fuel ih =>
    intro rule id pair w h
    unfold applyRule
    refine parallel_ite Iff.rfl (fun _ => ?_) fun _ => ?_
    · exact parallel_throw (.rule (.invalid rule.name (.selfApplication pair)))
    refine parallel_bind (parallel_get ?_)
    refine parallel_ite Iff.rfl (fun _ => parallel_pure h) fun _ => ?_
    refine parallel_bind (parallel_modify rfl ?_)
    exact parallel_applyParts (ih (id :: path)) h

theorem twins_start (rules : RuleSet) (source : Side) (forced : Bool) :
    Twins (start rules (.oneWay source forced))
      (start rules.swap (.oneWay source.other forced)) := by
  intro rule id pair w h
  have hlimit : nestingLimit rules.swap (.oneWay source.other forced) w.swap.graphs =
      nestingLimit rules (.oneWay source forced) w.graphs := by simp [nestingLimit, State.swap]
  unfold start
  refine parallel_bind (parallel_get ?_)
  rw [hlimit]
  exact twins_applyRule rules source forced _ [] rule id pair w h

/-- A pass and its mirror image end alike. -/
theorem parallel_syncRoots (rules : RuleSet) (source : Side) (forced : Bool) (rootRule : RuleName)
    (h : w.Keyed) :
    parallel (syncRoots rules (.oneWay source forced) rootRule)
      (syncRoots rules.swap (.oneWay source.other forced) rootRule) (fun _ _ w' => w'.Keyed) w := by
  unfold syncRoots
  refine parallel_bind (parallel_rule fun r _ => ?_)
  refine parallel_bind (parallel_get ?_)
  refine parallel_liftGraph_comm (fun _ he => ⟨_, Graph.typeOf_error he⟩)
    (fun _ he => ⟨_, Graph.typeOf_error he⟩) fun left right _ _ => ?_
  refine parallel_ite (not_congr (Sided.swap_inj (p := ⟨left, right⟩) (q := r.types)))
    (fun _ => ?_) fun _ => ?_
  · exact parallel_throw (.rule (.invalid r.name (.rootTypes ⟨left, right⟩ r.types)))
  refine parallel_bind (parallel_onPairs r.name (w.graphs.map Graph.root) ?_)
  rcases Correspondences.anchor_swap r.name (w.graphs.map Graph.root) h (.oneWay source forced) with
    ⟨o, t, he, he'⟩ | hrefused
  · refine .inl ⟨o, t, he, he', ?_⟩
    refine parallel_bind (parallel_countPair fun report => ?_)
    refine parallel_bind
      (parallel_mono (parallel_releaseAllLost (d := .oneWay source forced) fun s => (h s).anchor he)
      fun _ _ w₁ h₁ => ?_)
    exact twins_start rules source forced r o.id _ w₁ h₁
  · exact .inr hrefused

end Walk

end GraphSync
