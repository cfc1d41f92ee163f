import GraphSync.Proofs.Walk.Anchor

namespace GraphSync.Walk

variable {α β : Type} {rules : RuleSet} {d : Direction}

/-- Applies a rule with up to `n` applications in progress, besides those of the pairs of `path`. An
application below all of these is left to `beyond`. -/
def applyRuleUpTo (rules : RuleSet) (d : Direction) (beyond : Apply) :
    Nat → List CorrespondenceId → Apply
  | 0, path, rule, id, pair => unlessVisited path rule id pair (beyond rule id pair)
  | n + 1, path, rule, id, pair =>
    unlessVisited path rule id pair
      (visit rules d (applyRuleUpTo rules d beyond n (id :: path)) rule id pair)

/-- The application of a rule when there is no room left. -/
def giveUp : Apply := fun _ _ _ => throw .tooDeep

/-- Unless `x` ends because rules are nested too deeply, `y` ends in the same way. -/
def Approximates (x y : Walk α) : Prop :=
  ∀ w, (exec x w).1 ≠ .error .tooDeep → exec y w = exec x w

theorem wp_of_approximates {x y : Walk α} {Q : α → State → Prop}
    {E : Error → State → Prop} {w : State} (h : Approximates x y) (hx : wp x Q E w)
    (hE : ∀ w', ¬ E .tooDeep w') : wp y Q E w := by
  obtain ⟨hok, herror⟩ := wp_iff.mp hx
  rw [wp_iff, h w fun he => hE _ (herror _ he)]
  exact ⟨hok, herror⟩

namespace Approximates

theorem refl (x : Walk α) : Approximates x x := fun _ _ => rfl

theorem throw (y : Walk α) : Approximates (MonadExcept.throw Error.tooDeep) y :=
  fun _ h => absurd rfl h

theorem bind {x y : Walk β} {f g : β → Walk α} (h : Approximates x y)
    (hf : ∀ b, Approximates (f b) (g b)) : Approximates (x >>= f) (y >>= g) := by
  intro w hw
  have hx : (exec x w).1 ≠ .error .tooDeep := by
    intro he
    refine hw ?_
    rw [exec_bind]
    rcases hr : exec x w with ⟨_ | _, _⟩ <;> rw [hr] at he <;> cases he
    rfl
  rw [exec_bind] at hw
  rw [exec_bind, exec_bind, h w hx]
  rcases hr : exec x w with ⟨_ | b, w'⟩
  · rfl
  · rw [hr] at hw
    exact hf b w' hw

theorem forM {f g : α → Walk Unit} (l : List α) (h : ∀ a, Approximates (f a) (g a)) :
    Approximates (l.forM f) (l.forM g) := by
  induction l with
  | nil => exact .refl _
  | cons a l ih => exact .bind (h a) fun _ => ih

end Approximates

/-- At every pair, `a` approximates `b`. -/
def Apply.Approximates (a b : Apply) : Prop :=
  ∀ rule id pair, Walk.Approximates (a rule id pair) (b rule id pair)

/-- Where applications are given more room, so is the walk. -/
def Monotone (x : Apply → Walk α) : Prop :=
  ∀ ⦃a b⦄, Apply.Approximates a b → Approximates (x a) (x b)

section Walks

variable {a b : Apply} (h : Apply.Approximates a b)

include h

theorem approximates_linkMember (child : Child) (auth : Side) (owner : ElementId)
    (earlier : List ElementId) (member : ElementId) (later : List ElementId) :
    Approximates (linkMember rules d a child auth owner earlier member later)
      (linkMember rules d b child auth owner earlier member later) := by
  refine .bind (.refl _) fun x => .bind (.refl _) fun _ => .bind ?_ fun _ => .refl _
  exact .bind (.refl _) fun o => .bind (.refl _) fun id => h x.1 id _

theorem approximates_linkMembers (child : Child) (auth : Side) (owner : ElementId)
    (earlier ms : List ElementId) :
    Approximates (linkMembers rules d a child auth owner earlier ms)
      (linkMembers rules d b child auth owner earlier ms) := by
  induction ms generalizing earlier with
  | nil => exact .refl _
  | cons m later ih =>
    exact .bind (approximates_linkMember h child auth owner earlier m later) fun _ =>
      .bind (ih _) fun _ => .refl _

theorem approximates_syncRole (child : Child) (auth : Side) (pair : Sided ElementId) :
    Approximates (syncRole rules d a child auth pair) (syncRole rules d b child auth pair) := by
  refine .bind (.refl _) fun _ => .bind (.refl _) fun members => ?_
  exact .bind (approximates_linkMembers h child auth _ [] members) fun _ => .refl _

theorem approximates_visit : Apply.Approximates (visit rules d a) (visit rules d b) := by
  intro rule id pair
  refine .bind (.refl _) fun _ => .bind (.refl _) fun _ => ?_
  exact .forM _ fun child => .forM _ fun auth => approximates_syncRole h child auth pair

omit h in
theorem approximates_unlessVisited {x y : Walk Unit} (h : Approximates x y)
    (path : List CorrespondenceId) (rule : Rule) (id : CorrespondenceId) (pair : Sided ElementId) :
    Approximates (unlessVisited path rule id pair x) (unlessVisited path rule id pair y) := by
  unfold unlessVisited
  split
  · exact .refl _
  · refine .bind (.refl _) fun w => ?_
    split
    · exact .refl _
    · exact h

theorem approximates_carryAdditionBy (s : Side) (owner : ElementId) (role : RoleName)
    (target : ElementId) :
    Approximates (carryAdditionBy rules d a s owner role target)
      (carryAdditionBy rules d b s owner role target) := by
  refine .bind (.refl _) fun g => ?_
  dsimp only
  split
  · exact .refl _
  refine .bind (.refl _) fun members => ?_
  split
  swap
  · exact .refl _
  refine .bind (.refl _) fun t => .forM _ fun id => .bind (.refl _) fun t' => ?_
  split
  swap
  · exact .refl _
  refine .bind (.refl _) fun rule => .forM _ fun child => ?_
  exact .bind (approximates_linkMember h child s _ _ target _) fun _ => .refl _

end Walks

theorem monotone_syncRootsBy (rootRule : RuleName) :
    Monotone fun apply => syncRootsBy rules d apply rootRule :=
  fun _ _ h => .bind (.refl _) fun x => .bind (.refl _) fun _ => h x.1 x.2.1 x.2.2

theorem monotone_carryBy (s : Side) (c : Change) :
    Monotone fun apply => carryBy rules d apply s c := by
  intro a b h
  refine .bind (.refl _) fun _ => .bind (.refl _) fun w => ?_
  dsimp only
  split
  · exact .refl _
  · exact .bind (approximates_carryAdditionBy h s c.element _ _) fun _ => .refl _
  · exact .refl _

theorem approximates_beyond (beyond : Apply) (n : Nat) (path : List CorrespondenceId) :
    Apply.Approximates (applyRuleUpTo rules d giveUp n path)
      (applyRuleUpTo rules d beyond n path) := by
  induction n generalizing path with
  | zero => exact fun rule id pair => approximates_unlessVisited (.throw _) path rule id pair
  | succ n ih =>
    exact fun rule id pair =>
      approximates_unlessVisited (approximates_visit (ih (id :: path)) rule id pair)
        path rule id pair

theorem approximates_applyRule {n fuel : Nat} (h : n < fuel) (path : List CorrespondenceId) :
    Apply.Approximates (applyRuleUpTo rules d giveUp n path) (applyRule rules d fuel path) := by
  induction n generalizing fuel path with
  | zero =>
    obtain ⟨fuel, rfl⟩ : ∃ m, fuel = m + 1 := ⟨fuel - 1, by omega⟩
    exact fun rule id pair => approximates_unlessVisited (.throw _) path rule id pair
  | succ n ih =>
    obtain ⟨fuel, rfl⟩ : ∃ m, fuel = m + 1 := ⟨fuel - 1, by omega⟩
    have hn : n < fuel := by omega
    exact fun rule id pair =>
      approximates_unlessVisited (approximates_visit (ih hn (id :: path)) rule id pair)
        path rule id pair

theorem approximates_fuel {m n : Nat} (h : m ≤ n) (path : List CorrespondenceId) :
    Apply.Approximates (applyRule rules d m path) (applyRule rules d n path) := by
  induction m generalizing n path with
  | zero => exact fun _ _ _ => .throw _
  | succ m ih =>
    obtain ⟨n, rfl⟩ : ∃ m, n = m + 1 := ⟨n - 1, by omega⟩
    have hm : m ≤ n := by omega
    exact fun rule id pair =>
      approximates_unlessVisited (approximates_visit (ih hm (id :: path)) rule id pair)
        path rule id pair

end GraphSync.Walk
