import GraphSync.Walk.Change
import GraphSync.Walk.Root

namespace GraphSync.Walk

variable {α β : Type} {w : State}

/-- Runs a walk. -/
def exec (x : Walk α) (w : State) : Except Error α × State := x.run.run w

/-- Started in `w`, the walk ends with a result and a state of which `Q` holds, or with an error and
a state of which `E` holds. -/
def wp (x : Walk α) (Q : α → State → Prop) (E : Error → State → Prop)
    (w : State) : Prop :=
  match exec x w with
  | (.ok a, w') => Q a w'
  | (.error e, w') => E e w'

theorem wp_iff {x : Walk α} {Q : α → State → Prop} {E : Error → State → Prop} :
    wp x Q E w ↔ (∀ a, (exec x w).1 = .ok a → Q a (exec x w).2) ∧
      (∀ e, (exec x w).1 = .error e → E e (exec x w).2) := by
  unfold wp
  rcases exec x w with ⟨_ | _, _⟩ <;> simp

theorem exec_bind (x : Walk β) (f : β → Walk α) (w : State) :
    exec (x >>= f) w = match exec x w with
      | (.ok b, w') => exec (f b) w'
      | (.error e, w') => (.error e, w') := by
  have h : exec (x >>= f) w = match exec x w with | (r, w') => exec (ExceptT.bindCont f r) w' := rfl
  rw [h]
  rcases exec x w with ⟨_ | _, _⟩ <;> rfl

theorem wp_mono {x : Walk α} {Q Q' : α → State → Prop} {E E' : Error → State → Prop}
    (h : wp x Q E w) (hq : ∀ a w', Q a w' → Q' a w') (he : ∀ e w', E e w' → E' e w') :
    wp x Q' E' w :=
  wp_iff.mpr
    ⟨fun a ha => hq a _ ((wp_iff.mp h).1 a ha), fun e hr => he e _ ((wp_iff.mp h).2 e hr)⟩

theorem wp_imp {x : Walk α} {Q Q' : α → State → Prop} {E : Error → State → Prop}
    (h : wp x Q E w) (hq : ∀ a w', Q a w' → Q' a w') : wp x Q' E w :=
  wp_mono h hq fun _ _ he => he

theorem wp_and {x : Walk α} {Q Q' : α → State → Prop} {E E' : Error → State → Prop}
    (h : wp x Q E w) (h' : wp x Q' E' w) :
    wp x (fun a w' => Q a w' ∧ Q' a w') (fun e w' => E e w' ∧ E' e w') w :=
  wp_iff.mpr ⟨fun a ha => ⟨(wp_iff.mp h).1 a ha, (wp_iff.mp h').1 a ha⟩,
    fun e he => ⟨(wp_iff.mp h).2 e he, (wp_iff.mp h').2 e he⟩⟩

/-- What holds however the walk ends. -/
theorem exec_of_wp {x : Walk α} {I : State → Prop} (h : wp x (fun _ => I) (fun _ => I) w) :
    I (exec x w).2 := by
  obtain ⟨hok, herror⟩ := wp_iff.mp h
  cases hr : (exec x w).1 with
  | ok a => exact hok a hr
  | error e => exact herror e hr

theorem wp_ok {x : Walk α} {Q : α → State → Prop} {E : Error → State → Prop} {a : α}
    {w' : State} (h : wp x Q E w) (hx : exec x w = (.ok a, w')) : Q a w' := by
  rwa [wp, hx] at h

/-- A walk that cannot fail ends with a result. -/
theorem exec_ok_of_wp {x : Walk α} {Q : α → State → Prop} (h : wp x Q (fun _ _ => False) w) :
    ∃ a w', exec x w = (.ok a, w') ∧ Q a w' := by
  obtain ⟨hok, herror⟩ := wp_iff.mp h
  cases hx : (exec x w).1 with
  | ok a => exact ⟨a, _, Prod.ext hx rfl, hok a hx⟩
  | error e => exact (herror e hx).elim

section Steps

variable {Q : α → State → Prop} {R : Unit → State → Prop} {E : Error → State → Prop}

theorem wp_pure (a : α) : wp (pure a) Q E w = Q a w := rfl

theorem wp_throw (e : Error) : wp (throw e) Q E w = E e w := rfl

theorem wp_bind (x : Walk β) (f : β → Walk α) :
    wp (x >>= f) Q E w = wp x (fun b => wp (f b) Q E) E w := by
  unfold wp
  rw [exec_bind]
  rcases exec x w with ⟨_ | _, _⟩ <;> rfl

theorem wp_ite (c : Prop) [Decidable c] (x y : Walk α) :
    wp (if c then x else y) Q E w = if c then wp x Q E w else wp y Q E w := by
  split <;> rfl

theorem wp_get {Q : State → State → Prop} : wp get Q E w = Q w w := rfl

theorem wp_modify (f : State → State) : wp (modify f) R E w = R () (f w) := rfl

theorem wp_graph {Q : Graph → State → Prop} (s : Side) :
    wp (graph s) Q E w = Q (w.graphs.on s) w := rfl

theorem wp_pairs {Q : Correspondences → State → Prop} : wp pairs Q E w = Q w.pairs w := rfl

theorem wp_liftGraph (r : Except GraphError α) : wp (liftGraph r) Q E w = match r with
    | .ok a => Q a w
    | .error e => E (.graph e) w := by
  cases r <;> rfl

theorem wp_liftRule (r : Except RuleError α) : wp (liftRule r) Q E w = match r with
    | .ok a => Q a w
    | .error e => E (.rule e) w := by
  cases r <;> rfl

theorem wp_onGraph (s : Side) (f : Graph → Except GraphError (α × Graph)) :
    wp (onGraph s f) Q E w = match f (w.graphs.on s) with
      | .ok (a, g) => Q a { w with graphs := w.graphs.put s g }
      | .error e => E (.graph e) w := by
  simp only [onGraph, wp_bind, wp_graph, wp_liftGraph]
  rcases f (w.graphs.on s) with _ | ⟨_, _⟩ <;> rfl

theorem wp_onPairs (f : Correspondences → Except PairConflict (α × Correspondences)) :
    wp (onPairs f) Q E w = match f w.pairs with
      | .ok (a, t) => Q a { w with pairs := t }
      | .error c => E (.pairConflict c) w := by
  simp only [onPairs, wp_bind, wp_pairs]
  rcases f w.pairs with _ | ⟨_, _⟩ <;> rfl

theorem wp_note (f : Report → Report) :
    wp (note f) R E w = R () { w with report := f w.report } := rfl

theorem wp_releasePair (id : CorrespondenceId) : wp (releasePair id) R E w =
    R () { w with
      pairs := w.pairs.remove id
      report := { w.report with pairsReleased := w.report.pairsReleased + 1 } } := rfl

theorem wp_countPair {Q : CorrespondenceId → State → Prop} (o : Correspondences.Obtained) :
    wp (countPair o) Q E w = Q o.id { w with
      report := if o.created then { w.report with pairsCreated := w.report.pairsCreated + 1 }
        else w.report } := by
  rcases o with ⟨id, _ | _⟩ <;> rfl

end Steps

theorem wp_forM_cons {Q : Unit → State → Prop} {E : Error → State → Prop} (a : α)
    (l : List α) (f : α → Walk Unit) :
    wp ((a :: l).forM f) Q E w = wp (f a) (fun _ => wp (l.forM f) Q E) E w :=
  wp_bind (f a) fun _ => l.forM f

theorem wp_forM_append {Q : Unit → State → Prop} {E : Error → State → Prop} (l l' : List α)
    (f : α → Walk Unit) :
    wp ((l ++ l').forM f) Q E w = wp (l.forM f) (fun _ => wp (l'.forM f) Q E) E w := by
  have h : (l ++ l').forM f = l.forM f >>= fun _ => l'.forM f := List.forM_append
  rw [h, wp_bind]

theorem wp_forM_keep {I : State → Prop} {E : Error → State → Prop} {f : α → Walk Unit}
    {l : List α} (step : ∀ a ∈ l, ∀ w, I w → wp (f a) (fun _ => I) E w) (h : I w) :
    wp (l.forM f) (fun _ => I) E w := by
  induction l generalizing w with
  | nil => exact h
  | cons a l ih =>
    rw [wp_forM_cons]
    apply wp_imp (step a (by simp) w h)
    intro _ w' h'
    exact ih (fun b hb => step b (by simp [hb])) h'

/-- A loop ends with an error if one of its rounds does. -/
theorem wp_forM_never {I : State → Prop} {E : Error → State → Prop} {f : α → Walk Unit}
    {l : List α} {a : α} (ha : a ∈ l)
    (step : ∀ b ∈ l, ∀ w, I w → wp (f b) (fun _ => I) E w)
    (never : ∀ w, I w → wp (f a) (fun _ _ => False) E w) (h : I w) :
    wp (l.forM f) (fun _ _ => False) E w := by
  induction l generalizing w with
  | nil => cases ha
  | cons b l ih =>
    rw [wp_forM_cons]
    rcases List.mem_cons.mp ha with rfl | ha
    · exact wp_imp (never w h) fun _ _ hf => hf.elim
    · refine wp_imp (step b (by simp) w h) fun _ w' h' => ?_
      exact ih ha (fun b' hb' => step b' (by simp [hb'])) h'

/-- A loop whose invariant speaks of the items that were worked off. -/
theorem wp_forM_worked {I : List α → State → Prop} {E : Error → State → Prop}
    {f : α → Walk Unit} {l : List α}
    (step : ∀ pre a post, l = pre ++ a :: post → ∀ w, I pre w →
      wp (f a) (fun _ w' => I (pre ++ [a]) w') E w)
    (h : I [] w) : wp (l.forM f) (fun _ w' => I l w') E w := by
  have rest (pre post : List α) (hl : l = pre ++ post) (w : State) (h : I pre w) :
      wp (post.forM f) (fun _ w' => I l w') E w := by
    induction post generalizing pre w with
    | nil =>
      rw [List.append_nil] at hl
      subst hl
      exact h
    | cons a post ih =>
      rw [wp_forM_cons]
      apply wp_imp (step pre a post hl w h)
      intro _ w' h'
      exact ih (pre ++ [a]) (by simpa using hl) w' h'
  exact rest [] l rfl w h

/-- A loop whose rounds bring something about each, and undo nothing of the kind. -/
theorem wp_forM_each {I : State → Prop} {G : α → State → Prop} {E : Error → State → Prop}
    {f : α → Walk Unit} {l : List α}
    (step : ∀ a ∈ l, ∀ w, I w →
      wp (f a) (fun _ w' => I w' ∧ G a w' ∧ ∀ b, G b w → G b w') E w)
    (h : I w) : wp (l.forM f) (fun _ w' => I w' ∧ ∀ a ∈ l, G a w') E w := by
  refine wp_forM_worked (I := fun pre w => I w ∧ ∀ a ∈ pre, G a w)
    (fun pre a post hl w hw => ?_) ⟨h, by simp⟩
  refine wp_imp (step a (by simp [hl]) w hw.1) fun _ w' h' => ⟨h'.1, fun b hb => ?_⟩
  rcases List.mem_append.mp hb with hb | hb
  · exact h'.2.2 b (hw.2 b hb)
  · exact List.mem_singleton.mp hb ▸ h'.2.1

theorem wp_mapM_keep {I : State → Prop} {E : Error → State → Prop} {f : α → Walk β}
    {l : List α} (step : ∀ a ∈ l, ∀ w, I w → wp (f a) (fun _ => I) E w) (h : I w) :
    wp (l.mapM f) (fun _ => I) E w := by
  induction l generalizing w with
  | nil => exact h
  | cons a l ih =>
    rw [List.mapM_cons, wp_bind]
    apply wp_imp (step a (by simp) w h)
    intro _ w' h'
    rw [wp_bind]
    exact wp_imp (ih (fun b hb => step b (by simp [hb])) h') (fun _ _ hi => hi)

theorem wp_mapM_worked {I : List α → State → Prop} {E : Error → State → Prop}
    {f : α → Walk β} {l : List α}
    (step : ∀ pre a post, l = pre ++ a :: post → ∀ w, I pre w →
      wp (f a) (fun _ w' => I (pre ++ [a]) w') E w)
    (h : I [] w) : wp (l.mapM f) (fun _ w' => I l w') E w := by
  have rest (pre post : List α) (hl : l = pre ++ post) (w : State) (h : I pre w) :
      wp (post.mapM f) (fun _ w' => I l w') E w := by
    induction post generalizing pre w with
    | nil =>
      rw [List.append_nil] at hl
      subst hl
      exact h
    | cons a post ih =>
      rw [List.mapM_cons, wp_bind]
      apply wp_imp (step pre a post hl w h)
      intro _ w' h'
      rw [wp_bind]
      exact wp_imp (ih (pre ++ [a]) (by simpa using hl) w' h') fun _ _ hi => hi
  exact rest [] l rfl w h

theorem wp_mapM_each {I : State → Prop} {G : α → State → Prop} {E : Error → State → Prop}
    {f : α → Walk β} {l : List α}
    (step : ∀ a ∈ l, ∀ w, I w →
      wp (f a) (fun _ w' => I w' ∧ G a w' ∧ ∀ b, G b w → G b w') E w)
    (h : I w) : wp (l.mapM f) (fun _ w' => I w' ∧ ∀ a ∈ l, G a w') E w := by
  refine wp_mapM_worked (I := fun pre w => I w ∧ ∀ a ∈ pre, G a w)
    (fun pre a post hl w hw => ?_) ⟨h, by simp⟩
  refine wp_imp (step a (by simp [hl]) w hw.1) fun _ w' h' => ⟨h'.1, fun b hb => ?_⟩
  rcases List.mem_append.mp hb with hb | hb
  · exact h'.2.2 b (hw.2 b hb)
  · exact List.mem_singleton.mp hb ▸ h'.2.1

/-- A loop whose rounds all give a result of that kind. -/
theorem wp_mapM_all {I : State → Prop} {P : β → Prop} {E : Error → State → Prop}
    {f : α → Walk β} {l : List α}
    (step : ∀ a ∈ l, ∀ w, I w → wp (f a) (fun b w' => P b ∧ I w') E w) (h : I w) :
    wp (l.mapM f) (fun bs w' => (∀ b ∈ bs, P b) ∧ I w') E w := by
  induction l generalizing w with
  | nil => exact ⟨by simp, h⟩
  | cons a l ih =>
    rw [List.mapM_cons, wp_bind]
    refine wp_imp (step a (by simp) w h) fun b w' h' => ?_
    rw [wp_bind]
    refine wp_imp (ih (fun a' ha' => step a' (by simp [ha'])) h'.2) fun bs w'' h'' => ?_
    exact ⟨List.forall_mem_cons.mpr ⟨h'.1, h''.1⟩, h''.2⟩

end GraphSync.Walk
