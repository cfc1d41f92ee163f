import GraphSync.Proofs.Session.Flush
import GraphSync.Proofs.Walk.Swap

namespace GraphSync

namespace Walk

variable {w : State} {rules : RuleSet} {source s : Side} {forced : Bool}
  {e owner target : ElementId} {role : RoleName}

/-- The pairs of an element have the same handles on both sides. -/
theorem ids_swap (t : Correspondences) (s : Side) (e : ElementId) :
    (t.swap.ofElement s.other e).map (·.id) = (t.ofElement s e).map (·.id) := by
  rw [Correspondences.ofElement_swap, List.map_map]
  rfl

theorem parallel_carryAttribute {name : AttributeName} (h : w.Keyed) :
    parallel (carryAttribute rules (.oneWay source forced) s e name)
      (carryAttribute rules.swap (.oneWay source.other forced) s.other e name)
      (fun b b' w' => b' = b ∧ w'.Keyed) w := by
  unfold carryAttribute
  refine parallel_bind (parallel_graph ?_)
  refine parallel_ite Iff.rfl (fun _ => parallel_pure ⟨rfl, h⟩) fun _ => ?_
  refine parallel_bind (parallel_pairs ?_)
  dsimp only
  rw [ids_swap]
  refine parallel_bind
    (parallel_mono (parallel_mapM (R := Eq) (I := State.Keyed) (List.forall₂_refl _) ?_ h) ?_)
  swap
  · rintro conflicts _ w₁ ⟨rfl, h₁⟩
    exact parallel_pure ⟨rfl, h₁⟩
  rintro id _ rfl w₁ h₁
  refine parallel_bind (parallel_pairs ?_)
  rw [Correspondences.get?_swap]
  cases w₁.pairs.get? id with
  | none => exact parallel_pure ⟨rfl, h₁⟩
  | some c =>
    refine parallel_bind (parallel_rule fun r _ => ?_)
    rw [Rule.bindingsOn_swap]
    refine parallel_bind
      (parallel_mono (parallel_mapM (I := State.Keyed) (forall₂_map _ _) ?_ h₁) ?_)
    · rintro ⟨b, index⟩ _ rfl w₂ h₂
      exact parallel_applyBinding h₂
    · rintro outcomes _ w₂ ⟨rfl, h₂⟩
      exact parallel_pure ⟨rfl, h₂⟩

theorem parallel_carryAddition (h : w.Keyed) :
    parallel (carryAddition rules (.oneWay source forced) s owner role target)
      (carryAddition rules.swap (.oneWay source.other forced) s.other owner role target)
      (fun _ _ w' => w'.Keyed) w := by
  unfold carryAddition
  refine parallel_bind (parallel_graph ?_)
  refine parallel_ite Iff.rfl (fun _ => parallel_pure h) fun _ => ?_
  refine parallel_bind (parallel_liftGraph fun members _ => ?_)
  cases members.idxOf? target with
  | none => exact parallel_pure h
  | some position =>
    refine parallel_bind (parallel_pairs ?_)
    dsimp only
    rw [ids_swap]
    refine parallel_forM (R := Eq) (List.forall₂_refl _) ?_ h
    rintro id _ rfl w₁ h₁
    refine parallel_bind (parallel_pairs ?_)
    rw [Correspondences.get?_swap]
    cases w₁.pairs.get? id with
    | none => exact parallel_pure h₁
    | some c =>
      refine parallel_bind (parallel_rule fun r _ => ?_)
      rw [c.element_swap_other s.other, Rule.childrenOn_swap]
      refine parallel_forM (forall₂_map Child.swap _) ?_ h₁
      rintro child _ rfl w₂ h₂
      refine parallel_bind
        (parallel_mono (parallel_linkMember (twins_start rules source forced) h₂) ?_)
      rintro _ _ w₃ ⟨_, h₃⟩
      exact parallel_pure h₃

theorem parallel_carryRemoval (h : w.Keyed) :
    parallel (carryRemoval rules s owner role target)
      (carryRemoval rules.swap s.other owner role target) (fun _ _ w' => w'.Keyed) w := by
  unfold carryRemoval
  refine parallel_bind (parallel_graph ?_)
  refine parallel_ite Iff.rfl (fun _ => parallel_pure h) fun _ => ?_
  refine parallel_bind (parallel_pairs ?_)
  dsimp only
  rw [ids_swap]
  refine parallel_bind
    (parallel_mono (parallel_forM (R := Eq) (I := State.Keyed) (List.forall₂_refl _) ?_ h) ?_)
  swap
  · intro _ _ w₁ h₁
    refine parallel_ite Iff.rfl (fun _ => parallel_modify ?_ ?_) fun _ => parallel_pure h₁
    · have hmem : (s.other, target) ∈ w₁.swap.deleted ↔ (s, target) ∈ w₁.deleted := by
        simp only [State.swap, List.mem_map, Prod.mk.injEq, Prod.exists]
        refine ⟨?_, fun hm => ⟨s, target, hm, rfl, rfl⟩⟩
        rintro ⟨t, _, hm, ht, rfl⟩
        rwa [← s.other_other, ← ht, Side.other_other]
      by_cases hm : (s, target) ∈ w₁.deleted
      · rw [if_pos hm, if_pos (hmem.mpr hm)]
      · rw [if_neg hm, if_neg fun hm' => hm (hmem.mp hm')]
        simp [State.swap]
    · split <;> exact h₁
  rintro id _ rfl w₁ h₁
  refine parallel_bind (parallel_pairs ?_)
  rw [Correspondences.get?_swap]
  cases w₁.pairs.get? id with
  | none => exact parallel_pure h₁
  | some c =>
    refine parallel_bind (parallel_rule fun r _ => ?_)
    refine parallel_bind (parallel_graph ?_)
    rw [c.element_swap_other s.other, Rule.childrenOn_swap]
    refine parallel_ite Iff.rfl (fun _ => ?_) fun _ => parallel_pure h₁
    refine parallel_forM (forall₂_map Child.swap _) ?_ h₁
    rintro child _ rfl w₂ h₂
    rw [child.roles_swap s.other]
    refine parallel_bind (parallel_graph ?_)
    refine parallel_bind (parallel_liftGraph fun present _ => ?_)
    refine parallel_bind (parallel_pairs ?_)
    rw [Correspondences.partners_swap]
    refine parallel_forM (R := Eq) (I := State.Keyed) (List.forall₂_refl _) ?_ h₂
    rintro p _ rfl w₃ h₃
    exact parallel_unlink fun report => h₃

/-- One edit is carried over alike, also what is said about it. -/
theorem parallel_carry (rules : RuleSet) (source : Side) (forced : Bool) (s : Side) (c : Change)
    (h : w.Keyed) :
    parallel (carry rules (.oneWay source forced) s c)
      (carry rules.swap (.oneWay source.other forced) s.other c)
      (fun outcome outcome' w' => outcome' = outcome ∧ w'.Keyed) w := by
  have judge (effects : Nat) (conflicted : Bool) (w : State) (h : w.Keyed) :
      let x : Walk ChangeOutcome := do
        if effects < (← get).report.effects then return .applied
        return if conflicted then .conflicted else .skipped
      parallel x x (fun outcome outcome' w' => outcome' = outcome ∧ w'.Keyed) w := by
    refine parallel_bind (parallel_get ?_)
    exact parallel_ite Iff.rfl (fun _ => parallel_pure ⟨rfl, h⟩) fun _ =>
      parallel_pure ⟨rfl, h⟩
  obtain ⟨e, effect⟩ := c
  unfold carry
  refine parallel_bind (parallel_modify rfl (parallel_bind (parallel_get ?_)))
  cases effect with
  | attributeSet name before after =>
    refine parallel_bind (parallel_mono (parallel_carryAttribute h) ?_)
    rintro _ conflicted w₁ ⟨rfl, h₁⟩
    exact judge _ conflicted w₁ h₁
  | referenceAdded role index target =>
    refine parallel_bind (parallel_mono (parallel_carryAddition h) fun _ _ w₁ h₁ => ?_)
    exact judge _ false w₁ h₁
  | referenceRemoved role index target =>
    refine parallel_bind (parallel_mono (parallel_carryRemoval h) fun _ _ w₁ h₁ => ?_)
    exact judge _ false w₁ h₁

theorem releaseDeleted_swap (w : State) : releaseDeleted w.swap = (releaseDeleted w).swap := by
  have hdeleted : w.swap.deleted = w.deleted.map fun p => (p.1.other, p.2) := rfl
  unfold releaseDeleted
  rw [hdeleted, List.foldl_map]
  change List.foldl _ (State.swap { w with deleted := [] }) _ =
    State.swap (List.foldl _ { w with deleted := [] } _)
  refine List.foldl_hom State.swap fun w p => ?_
  simp [State.swap, Correspondences.release_swap]

/-- Carries edits of one side over, up to the first that fails. The edits after that one are
left. -/
def relay (rules : RuleSet) (d : Direction) (s : Side) :
    List Change → State → (Except Error Unit × State) × List Change
  | [], w => ((.ok (), w), [])
  | c :: cs, w =>
    match exec (carry rules d s c) w with
    | (.ok _, w') => relay rules d s cs w'
    | (.error e, w') => ((.error e, w'), cs)

theorem relay_swap (rules : RuleSet) (source : Side) (forced : Bool) (s : Side) (cs : List Change)
    (h : w.Keyed) :
    let x := relay rules (.oneWay source forced) s cs w
    let y := relay rules.swap (.oneWay source.other forced) s.other cs w.swap
    Exchanged (fun _ _ => True) x.1.1 y.1.1 ∧ y.1.2 = x.1.2.swap ∧ y.2 = x.2 := by
  induction cs generalizing w with
  | nil => exact ⟨.ok trivial, rfl, rfl⟩
  | cons c cs ih =>
    obtain ⟨hstate, hend⟩ := parallel_carry rules source forced s c h
    simp only [relay]
    rcases hx : exec (carry rules (.oneWay source forced) s c) w with ⟨r, w₁⟩
    rcases hy :
      exec (carry rules.swap (.oneWay source.other forced) s.other c) w.swap with ⟨r', w₂⟩
    rw [hx, hy] at hstate hend
    obtain rfl : w₂ = w₁.swap := hstate
    cases hend with
    | ok hr => exact ih hr.2
    | error he => exact ⟨.error he, rfl, rfl⟩

end Walk

namespace Session

open Walk

/-- The queued edits that a flush carries over. -/
def accepted (o : Options) (items : List Pending) : List Change :=
  (items.filter (o.accepts ·.side)).map (·.change)

/-- If one side alone is carried over, working off the queue is carrying over the edits of that
side. -/
theorem drain_eq_relay (rules : RuleSet) {o : Options} {side : Side}
    (hside : ∀ t, o.accepts t = true → t = side) (items : List Pending) {f : Flush}
    (hf : f.queue.items = items) :
    let r := Flush.drain rules o items f
    let x := relay rules o.flushDirection side (accepted o items) f.walk
    r.1 = x.1.1 ∧ r.2.walk = x.1.2 ∧ accepted o r.2.queue.items = x.2 := by
  induction items generalizing f with
  | nil => exact ⟨rfl, rfl, by rw [Flush.drain, hf]; rfl⟩
  | cons p rest ih =>
    let f₁ : Flush := { f with queue := { f.queue with items := rest } }
    simp only [Flush.drain]
    by_cases ha : o.accepts p.side = true
    · have haccepted : accepted o (p :: rest) = p.change :: accepted o rest := by
        simp [accepted, ha]
      obtain ⟨hwalk, hqueue, hend⟩ := @step_of_accepts rules o p ha f₁
      rw [haccepted, relay, ← hside p.side ha]
      rcases hstep : Flush.step rules o f₁ p with ⟨r, f₂⟩
      rcases hx : exec (carry rules o.flushDirection p.side p.change) f.walk with ⟨r', w⟩
      rw [hstep, hx] at hend hwalk
      rw [hstep] at hqueue
      obtain rfl : f₂.walk = w := hwalk
      cases r' with
      | ok c =>
        obtain rfl : r = .ok () := hend
        rw [hside p.side ha]
        exact ih (congrArg Queue.items hqueue)
      | error e =>
        obtain rfl : r = .error e := hend
        exact ⟨rfl, rfl, congrArg (accepted o) (congrArg Queue.items hqueue)⟩
    · have haccepted : accepted o (p :: rest) = accepted o rest := by simp [accepted, ha]
      rw [haccepted, step_of_not_accepts ha]
      exact ih rfl

end Session

end GraphSync
