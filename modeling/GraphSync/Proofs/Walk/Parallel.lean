import GraphSync.Proofs.Correspondence.Swap
import GraphSync.Proofs.Walk.Outcome
import Mathlib.Data.List.Forall2

namespace GraphSync

/-- Errors of one kind, with left and right exchanged. Which of two missing elements is named, and
which of two pairs that are in the way, is left open. -/
inductive Error.Exchanged : Error → Error → Prop where
  | rule (e : RuleError) : Exchanged (.rule e) (.rule e.swap)
  | graph (e : GraphError) : Exchanged (.graph e) (.graph e)
  | missing (x y : ElementId) : Exchanged (.graph (.unknownElement x)) (.graph (.unknownElement y))
  | pairConflict (rule : RuleName) (requested existing existing' : Sided ElementId) :
    Exchanged (.pairConflict ⟨rule, requested, existing⟩)
      (.pairConflict ⟨rule, requested.swap, existing'⟩)
  | tooDeep : Exchanged .tooDeep .tooDeep

/-- Two outcomes are both results, which `R` relates, or both errors, of one kind. -/
inductive Exchanged {α β : Type} (R : α → β → Prop) :
    Except Error α → Except Error β → Prop where
  | ok {a : α} {b : β} (h : R a b) : Exchanged R (.ok a) (.ok b)
  | error {e e' : Error} (h : e.Exchanged e') : Exchanged R (.error e) (.error e')

theorem Exchanged.mono {α β : Type} {R R' : α → β → Prop} {x : Except Error α}
    {y : Except Error β} (h : Exchanged R x y) (hr : ∀ a b, R a b → R' a b) :
    Exchanged R' x y := by
  cases h with
  | ok h => exact .ok (hr _ _ h)
  | error h => exact .error h

theorem Exchanged.map {α β γ δ : Type} {R : α → β → Prop} {R' : γ → δ → Prop}
    {x : Except Error α} {y : Except Error β} (h : Exchanged R x y)
    {f : α → γ} {g : β → δ} (hr : ∀ a b, R a b → R' (f a) (g b)) :
    Exchanged R' (x.map f) (y.map g) := by
  cases h with
  | ok h => exact .ok (hr _ _ h)
  | error h => exact .error h

namespace Walk

/-- The state with left and right exchanged. A report names no sides, as long as it holds no
conflict. -/
def State.swap (w : State) : State :=
  { w with
    graphs := w.graphs.swap
    pairs := w.pairs.swap
    deleted := w.deleted.map fun p => (p.1.other, p.2) }

/-- On either side a rule and an element name one pair. -/
def State.Keyed (w : State) : Prop := ∀ s, w.pairs.Keyed s

variable {α β γ δ : Type} {w : State} {Q : α → β → State → Prop}

/-- `x` on `w` and `y` on the exchanged state end alike: with results of which, and of the state
that `x` leaves, `Q` holds, or with errors of one kind. The state that `y` leaves is the exchanged
one. -/
def parallel (x : Walk α) (y : Walk β) (Q : α → β → State → Prop) (w : State) : Prop :=
  (exec y w.swap).2 = (exec x w).2.swap ∧
    Exchanged (fun a b => Q a b (exec x w).2) (exec x w).1 (exec y w.swap).1

theorem parallel_mono {Q' : α → β → State → Prop} {x : Walk α} {y : Walk β}
    (h : parallel x y Q w) (hq : ∀ a b w', Q a b w' → Q' a b w') : parallel x y Q' w :=
  ⟨h.1, h.2.mono fun a b => hq a b _⟩

theorem parallel_pure {a : α} {b : β} (h : Q a b w) : parallel (pure a) (pure b) Q w :=
  ⟨rfl, .ok h⟩

theorem parallel_throw {e e' : Error} (h : e.Exchanged e') : parallel (throw e) (throw e') Q w :=
  ⟨rfl, .error h⟩

theorem parallel_bind {x : Walk γ} {y : Walk δ} {f : γ → Walk α} {g : δ → Walk β}
    (h : parallel x y (fun c d => parallel (f c) (g d) Q) w) :
    parallel (x >>= f) (y >>= g) Q w := by
  obtain ⟨hstate, hend⟩ := h
  unfold parallel
  rw [exec_bind, exec_bind]
  rcases hx : exec x w with ⟨r, w₁⟩
  rcases hy : exec y w.swap with ⟨r', w₂⟩
  rw [hx, hy] at hstate hend
  obtain rfl : w₂ = w₁.swap := hstate
  cases hend with
  | ok h => exact h
  | error h => exact ⟨rfl, .error h⟩

theorem parallel_ite {c c' : Prop} [Decidable c] [Decidable c'] (hc : c' ↔ c) {x x' : Walk α}
    {y y' : Walk β} (hpos : c → parallel x y Q w) (hneg : ¬ c → parallel x' y' Q w) :
    parallel (if c then x else x') (if c' then y else y') Q w := by
  by_cases h : c
  · rw [if_pos h, if_pos (hc.mpr h)]
    exact hpos h
  · rw [if_neg h, if_neg fun h' => h (hc.mp h')]
    exact hneg h

theorem parallel_get {Q : State → State → State → Prop} (h : Q w w.swap w) :
    parallel get get Q w :=
  ⟨rfl, .ok h⟩

theorem parallel_modify {Q : Unit → Unit → State → Prop} {f g : State → State}
    (hswap : g w.swap = (f w).swap) (h : Q () () (f w)) : parallel (modify f) (modify g) Q w :=
      ⟨hswap, .ok h⟩

theorem parallel_graph {Q : Graph → Graph → State → Prop} {s : Side}
    (h : Q (w.graphs.on s) (w.graphs.on s) w) : parallel (graph s) (graph s.other) Q w := by
  refine ⟨rfl, .ok ?_⟩
  have hs : w.swap.graphs.on s.other = w.graphs.on s := by simp [State.swap]
  rw [hs]
  exact h

theorem parallel_pairs {Q : Correspondences → Correspondences → State → Prop}
    (h : Q w.pairs w.pairs.swap w) : parallel pairs pairs Q w :=
  ⟨rfl, .ok h⟩

theorem parallel_liftGraph {Q : α → α → State → Prop} {r : Except GraphError α}
    (h : ∀ a, r = .ok a → Q a a w) : parallel (liftGraph r) (liftGraph r) Q w := by
  cases r with
  | ok a => exact ⟨rfl, .ok (h a rfl)⟩
  | error e => exact ⟨rfl, .error (.graph e)⟩

/-- Two readings, of which either may fail, in either order. -/
theorem parallel_liftGraph_comm {r : Except GraphError γ} {r' : Except GraphError δ}
    {f : γ → δ → Walk α} {g : δ → γ → Walk β}
    (hr : ∀ e, r = .error e → ∃ x, e = .unknownElement x)
    (hr' : ∀ e, r' = .error e → ∃ x, e = .unknownElement x)
    (h : ∀ c d, r = .ok c → r' = .ok d → parallel (f c d) (g d c) Q w) :
    parallel (liftGraph r >>= fun c => liftGraph r' >>= fun d => f c d)
      (liftGraph r' >>= fun d => liftGraph r >>= fun c => g d c) Q w := by
  cases r with
  | error e =>
    obtain ⟨x, rfl⟩ := hr e rfl
    cases r' with
    | error e' =>
      obtain ⟨y, rfl⟩ := hr' e' rfl
      exact ⟨rfl, .error (.missing x y)⟩
    | ok d => exact ⟨rfl, .error (.missing x x)⟩
  | ok c =>
    cases r' with
    | error e' => exact ⟨rfl, .error (.graph e')⟩
    | ok d => exact h c d rfl rfl

theorem parallel_rule {Q : Rule → Rule → State → Prop} {rules : RuleSet} {name : RuleName}
    (h : ∀ r, rules.rule? name = some r → Q r r.swap w) :
    parallel (liftRule (rules.rule name)) (liftRule (rules.swap.rule name)) Q w := by
  rw [RuleSet.rule, RuleSet.rule, RuleSet.rule?_swap]
  cases hr : rules.rule? name with
  | some r => exact ⟨rfl, .ok (h r hr)⟩
  | none => exact ⟨rfl, .error (.rule (.unknown name))⟩

theorem parallel_ruleFor {Q : Rule → Rule → State → Prop} {rules : RuleSet}
    {types : Sided TypeName} (h : ∀ r, rules.ruleFor? types = some r → Q r r.swap w) :
    parallel (liftRule (rules.ruleFor types)) (liftRule (rules.swap.ruleFor types.swap)) Q w := by
  rw [RuleSet.ruleFor, RuleSet.ruleFor, RuleSet.ruleFor?_swap]
  cases hr : rules.ruleFor? types with
  | some r => exact ⟨rfl, .ok (h r hr)⟩
  | none => exact ⟨rfl, .error (.rule (.noRule types))⟩

theorem parallel_onGraph {Q : α → α → State → Prop} {s : Side}
    {f : Graph → Except GraphError (α × Graph)}
    (h : ∀ a g, f (w.graphs.on s) = .ok (a, g) → Q a a { w with graphs := w.graphs.put s g }) :
    parallel (onGraph s f) (onGraph s.other f) Q w := by
  refine parallel_bind (parallel_graph (parallel_bind (parallel_liftGraph ?_)))
  rintro ⟨a, g⟩ he
  refine parallel_bind (parallel_modify ?_ (parallel_pure (h a g he)))
  simp [State.swap]

theorem parallel_onPairs {Q : α → α → State → Prop}
    {f g : Correspondences → Except PairConflict (α × Correspondences)} (rule : RuleName)
    (requested : Sided ElementId)
    (h : (∃ a t, f w.pairs = .ok (a, t) ∧ g w.pairs.swap = .ok (a, t.swap) ∧
      Q a a { w with pairs := t }) ∨
      ∃ c c', f w.pairs = .error ⟨rule, requested, c⟩ ∧
        g w.pairs.swap = .error ⟨rule, requested.swap, c'⟩) :
    parallel (onPairs f) (onPairs g) Q w := by
  refine parallel_bind (parallel_pairs ?_)
  rcases h with ⟨a, t, he, he', hq⟩ | ⟨c, c', he, he'⟩
  · rw [he, he']
    exact parallel_bind (parallel_modify rfl (parallel_pure hq))
  · rw [he, he']
    exact parallel_throw (.pairConflict rule requested c c')

theorem parallel_note {Q : Unit → Unit → State → Prop} {f : Report → Report}
    (h : Q () () { w with report := f w.report }) : parallel (note f) (note f) Q w :=
      ⟨rfl, .ok h⟩

theorem parallel_releasePair {Q : Unit → Unit → State → Prop} {id : CorrespondenceId}
    (h : ∀ report, Q () () { w with pairs := w.pairs.remove id, report }) :
    parallel (releasePair id) (releasePair id) Q w := by
  let report : Report := { w.report with pairsReleased := w.report.pairsReleased + 1 }
  exact ⟨congrArg (fun t => { w.swap with pairs := t, report }) (w.pairs.remove_swap id).symm,
    .ok (h report)⟩

theorem parallel_countPair {Q : CorrespondenceId → CorrespondenceId → State → Prop}
    {o : Correspondences.Obtained} (h : ∀ report, Q o.id o.id { w with report }) :
    parallel (countPair o) (countPair o) Q w := by
  rcases o with ⟨id, _ | _⟩
  · exact ⟨rfl, .ok (h _)⟩
  · exact ⟨rfl, .ok (h _)⟩

theorem parallel_recordShadow {Q : Unit → Unit → State → Prop} {id : CorrespondenceId}
    {index : Nat} {values : Shadow}
    (h : Q () () { w with pairs := w.pairs.recordShadow id index values }) :
    parallel (recordShadow id index values) (recordShadow id index values.swap) Q w :=
  parallel_modify
    (congrArg (fun t => { w.swap with pairs := t })
      (w.pairs.recordShadow_swap id index values).symm) h

theorem parallel_forM {I : State → Prop} {R : α → β → Prop} {f : α → Walk Unit}
    {g : β → Walk Unit} {l : List α} {l' : List β} (hl : List.Forall₂ R l l')
    (step : ∀ a b, R a b → ∀ w, I w → parallel (f a) (g b) (fun _ _ => I) w) (h : I w) :
    parallel (l.forM f) (l'.forM g) (fun _ _ => I) w := by
  induction hl generalizing w with
  | nil => exact parallel_pure h
  | cons hab _ ih =>
    refine parallel_bind ?_
    exact parallel_mono (step _ _ hab w h) fun _ _ w' h' => ih h'

/-- A loop that gives the same results on both sides. -/
theorem parallel_mapM {I : State → Prop} {R : α → β → Prop} {f : α → Walk γ}
    {g : β → Walk γ} {l : List α} {l' : List β} (hl : List.Forall₂ R l l')
    (step : ∀ a b, R a b → ∀ w, I w →
      parallel (f a) (g b) (fun c c' w' => c' = c ∧ I w') w)
    (h : I w) : parallel (l.mapM f) (l'.mapM g) (fun cs cs' w' => cs' = cs ∧ I w') w := by
  induction hl generalizing w with
  | nil => exact parallel_pure ⟨rfl, h⟩
  | cons hab _ ih =>
    rw [List.mapM_cons, List.mapM_cons]
    refine parallel_bind (parallel_mono (step _ _ hab w h) ?_)
    rintro c _ w₁ ⟨rfl, h₁⟩
    refine parallel_bind (parallel_mono (ih h₁) ?_)
    rintro cs _ w₂ ⟨rfl, h₂⟩
    exact parallel_pure ⟨rfl, h₂⟩

theorem forall₂_map (k : α → β) (l : List α) :
    List.Forall₂ (fun a b => b = k a) l (l.map k) := by
  rw [List.forall₂_map_right_iff, List.forall₂_same]
  exact fun _ _ => rfl

end Walk

end GraphSync
