import GraphSync.Proofs.Walk.Nesting
import GraphSync.Proofs.Walk.Node

namespace GraphSync

open Walk

/-- No pair was visited twice, nor more than `n` pairs. -/
def Walk.State.Once (n : Nat) (w : State) : Prop := w.visited.Nodup ∧ w.visited.length ≤ n

namespace Scheme

variable {k : Scheme} {d : Direction} {V : CorrespondenceId → Prop} {w₀ w : State}

/-- Pairs with live elements, that of the roots apart, are not more than the rules at the live
elements of a side. -/
theorem Consistent.length_le_of_holds (h : k.Consistent w.graphs w.pairs)
    {ids : List CorrespondenceId} (hn : ids.Nodup) (hids : ∀ id ∈ ids, w.store.Holds id)
    (s : Side) : ids.length ≤ (w.graphs.on s).size * k.rules.size := by
  let held : Correspondences := { w.pairs with
    entries := w.pairs.entries.filter fun c => (w.graphs.on s).contains (c.element s) }
  have hheld : k.Consistent w.graphs held := h.sublist List.filter_sublist rfl
  have hsub : ids ⊆ held.entries.map (·.id) := by
    intro id hid
    obtain ⟨c, hc, rfl, _, hl⟩ := hids id hid
    exact List.mem_map_of_mem (List.mem_filter.mpr ⟨hc, hl s⟩)
  have hle := (List.subperm_of_subset hn hsub).length_le
  rw [List.length_map] at hle
  exact Nat.le_trans hle (hheld.length_entries_le s fun c hc => (List.mem_filter.mp hc).2)

/-- What a walk visits once it has begun. -/
theorem Went.once_le (h : k.Consistent w₀.graphs w₀.pairs) (hv : w₀.visited = [])
    (hw : k.Went d V w₀ w) (s : Side) : w.Once ((w.graphs.on s).size * k.rules.size + 1) := by
  have hn : w.visited.Nodup := hw.once (hv ▸ List.nodup_nil)
  have hpaired (id : CorrespondenceId) (hid : id ∈ w.visited) :
      w.store.Holds id ∨ w₀.store.AnchoredAs id :=
    (hw.paired id hid).resolve_left (by simp [hv])
  refine ⟨hn, ?_⟩
  by_cases hanchored : ∃ id ∈ w.visited, w₀.store.AnchoredAs id
  · -- only the pair of the roots may have been dropped
    obtain ⟨root, hroot, c, hc, rfl, hanchor⟩ := hanchored
    have hrest := hw.consistent.length_le_of_holds (hn.erase c.id) (fun id hid => ?_) s
    · rw [List.length_erase_of_mem hroot] at hrest
      omega
    · obtain ⟨hne, hin⟩ := hn.mem_erase_iff.mp hid
      refine (hpaired id hin).resolve_right ?_
      rintro ⟨c', hc', rfl, hanchor'⟩
      exact hne (congrArg Correspondence.id (h.anchor_unique hc' hc hanchor' hanchor))
  · have hall :=
      hw.consistent.length_le_of_holds hn (fun id hid => (hpaired id hid).resolve_right fun ha =>
        hanchored ⟨id, hid, ha⟩) s
    omega

end Scheme

namespace OneWay

variable {k : OneWay} {w₀ w : State} {n : Nat}

/-- Rules may be applied to whatever a walk comes to, without ever nesting them too deeply, if there
are less than `n` rules at followed elements. -/
def Nests (k : OneWay) (n : Nat) (apply : Apply) : Prop :=
  ∀ w₀ : State, k.scheme.Consistent w₀.graphs w₀.pairs → w₀.visited = [] →
    (w₀.graphs.on k.source).size * k.rules.size < n →
      k.scheme.Applies k.direction (· ≠ .tooDeep) w₀ apply

/-- Each application in progress is of a pair that was visited, and no room is left only after all
have been. -/
theorem applies_applyRuleUpTo (h : k.scheme.Consistent w₀.graphs w₀.pairs)
    (hv : w₀.visited = []) (path : List CorrespondenceId)
    (hw : k.scheme.Went k.direction (fun _ => True) w₀ w)
    (hn : (w₀.graphs.on k.source).size * k.rules.size < n + w.visited.length) :
    k.scheme.Applies k.direction (· ≠ .tooDeep) w
      (applyRuleUpTo k.rules k.direction giveUp n path) := by
  induction n generalizing w path with
  | zero =>
    intro r c w' hw' hr hc hl
    refine Scheme.traces_unlessVisited hw'.consistent (.of_rule fun _ => nofun) path fun hnew => ?_
    have hmark := (hw.trans hw').trans (Scheme.Went.mark hw'.consistent hc hl hnew)
    obtain ⟨hnodup, hle⟩ := hmark.once_le h hv k.source
    have hsource : w'.graphs.on k.source = w₀.graphs.on k.source := (hw.trans hw').acts.source
    have hgrown := (List.subperm_of_subset (hw.once (hv ▸ List.nodup_nil)) hw'.visited).length_le
    simp only [List.length_cons, hsource] at hle
    have hrules : k.scheme.rules = k.rules := rfl
    rw [hrules] at hle
    omega
  | succ n ih =>
    intro r c w' hw' hr hc hl
    refine Scheme.traces_unlessVisited hw'.consistent (.of_rule fun _ => nofun) path fun hnew => ?_
    have hmark := (hw.trans hw').trans (Scheme.Went.mark hw'.consistent hc hl hnew)
    have hgrown := (List.subperm_of_subset (hw.once (hv ▸ List.nodup_nil)) hw'.visited).length_le
    refine Scheme.traces_visit (.of_rule fun _ => nofun) hw'.consistent hr hc hl hnew
      (ih (c.id :: path) hmark ?_)
    simp only [List.length_cons]
    omega

theorem nests_applyRuleUpTo : k.Nests n (applyRuleUpTo k.rules k.direction giveUp n []) :=
  fun _ h hv hn =>
    applies_applyRuleUpTo h hv [] (.refl h) (Nat.lt_of_lt_of_le hn (Nat.le_add_right _ _))

/-- The limit on nesting is large enough. -/
theorem nests_start : k.Nests n (start k.rules k.direction) := by
  intro w₀ h hv _ r c w hw hr hc hl
  let m := (w₀.graphs.on k.source).size * k.rules.size + 1
  have hupto :=
    nests_applyRuleUpTo (k := k) (n := m) w₀ h hv (Nat.lt_succ_self _) r c w hw hr hc hl
  have hlimit : nestingLimit k.rules k.direction w.graphs = m + 1 := by
    have hsource : w.graphs.on k.source = w₀.graphs.on k.source := hw.acts.source
    exact congrArg (fun g => g.size * k.rules.size + 2) hsource
  rw [Scheme.Traces, start, wp_bind, wp_get, hlimit]
  exact wp_of_approximates (approximates_applyRule (Nat.lt_succ_self m) [] r c.id c.elements) hupto
    fun _ he => he.2.2 rfl

variable {V : CorrespondenceId → Prop} {apply : Apply}

theorem once_went (h : k.scheme.Consistent w₀.graphs w₀.pairs) (hv : w₀.visited = [])
    (hn : (w₀.graphs.on k.source).size * k.rules.size < n)
    (hw : k.scheme.Went k.direction V w₀ w) : w.Once n := by
  obtain ⟨hnodup, hle⟩ := hw.once_le h hv k.source
  have hsource : w.graphs.on k.source = w₀.graphs.on k.source := hw.acts.source
  rw [hsource] at hle
  exact ⟨hnodup, Nat.le_trans hle hn⟩

theorem once_of_nil (hv : w.visited = []) (n : Nat) : w.Once n :=
  ⟨hv ▸ List.nodup_nil, hv ▸ Nat.zero_le n⟩

theorem once_syncRootsBy (h : k.scheme.Consistent w.graphs w.pairs) (hv : w.visited = [])
    (hn : (w.graphs.on k.source).size * k.rules.size < n) (happly : k.Nests n apply) :
    wp (syncRootsBy k.rules k.direction apply k.rootRule) (fun _ w' => w'.Once n)
      (fun e w' => w'.Once n ∧ e ≠ .tooDeep) w := by
  have hfirst : w.Once n := once_of_nil hv n
  refine Scheme.wp_syncRootsBy_paired (k := k.scheme) h (fun _ => ⟨hfirst, nofun⟩)
    (fun _ _ => ⟨hfirst, nofun⟩) (fun _ _ => ⟨hfirst, nofun⟩) fun r c w₁ hp => ?_
  refine Scheme.wp_run_purged (k := k.scheme) hp.consistent hp.entry hp.anchor hp.rule
    fun w₂ hpurged => ?_
  have hv₂ : w₂.visited = [] := by rw [hpurged.frees.visited, hp.visited, hv]
  have hsource : w₂.graphs.on k.source = w.graphs.on k.source :=
    (source_freed hpurged.frees).trans (hp.graphs ▸ rfl)
  rw [← hsource] at hn
  have htraces :=
    happly w₂ hpurged.consistent hv₂ hn r c w₂ (.refl hpurged.consistent)
      hpurged.rule hpurged.entry
    (hpurged.alive c hpurged.entry)
  exact wp_mono htraces (fun _ _ hw => once_went hpurged.consistent hv₂ hn hw)
    fun _ _ hw => ⟨once_went hpurged.consistent hv₂ hn hw.1, hw.2.2⟩

theorem once_carryBy (h : k.scheme.Consistent w.graphs w.pairs)
    (hn : (w.graphs.on k.source).size * k.rules.size < n) (happly : k.Nests n apply) (c : Change) :
    wp (carryBy k.rules k.direction apply k.source c) (fun _ w' => w'.Once n)
      (fun e w' => w'.Once n ∧ e ≠ .tooDeep) w := by
  let w₀ : State := { w with visited := [] }
  have h₀ : k.scheme.Consistent w₀.graphs w₀.pairs := h
  refine wp_carryBy_traced (k := k.scheme) (happly w₀ h₀ rfl hn) (.of_rule fun _ => nofun)
    (fun _ _ => nofun) h (List.mem_singleton_self k.source) (fun _ hw _ => once_went h₀ rfl hn hw)
    (fun _ _ hw _ he => ⟨once_went h₀ rfl hn hw, he⟩) ?_
  rintro _ _ target _ w' ⟨w₁, deleted, hf, _, rfl, _⟩
  exact once_of_nil hf.visited n

end OneWay

namespace Walk

variable {α : Type}

/-- The walk `y` is `x` with the application of rules put in, and it comes to an end with at most
`n` applications in progress: it does not matter what would be done below these, nor how far the
limit on nesting is beyond them. No pair is visited twice. -/
structure Within (rules : RuleSet) (d : Direction) (n : Nat) (y : Walk α) (x : Apply → Walk α)
    (w : State) : Prop where
  eq : y = x (start rules d)
  bounded : ∀ beyond, exec (x (applyRuleUpTo rules d beyond n [])) w = exec y w
  ends : (exec y w).1 ≠ .error .tooDeep
  fuel : ∀ fuel, n < fuel → exec (x (applyRule rules d fuel [])) w = exec y w
  once : (exec y w).2.Once n

/-- Applies a rule with the usual limit on nesting, or a higher one. -/
def startWith (rules : RuleSet) (d : Direction) (fuel : Nat) : Apply := fun rule id pair => do
  applyRule rules d (max fuel (nestingLimit rules d (← get).graphs)) [] rule id pair

theorem approximates_startWith (rules : RuleSet) (d : Direction) (n : Nat) :
    Apply.Approximates (start rules d) (startWith rules d n) :=
  fun rule id pair w hw => approximates_fuel (Nat.le_max_right _ _) [] rule id pair w hw

theorem approximates_applyRuleUpTo (rules : RuleSet) (d : Direction) (n : Nat) :
    Apply.Approximates (applyRuleUpTo rules d giveUp n []) (startWith rules d (n + 1)) := by
  intro rule id pair w hw
  exact approximates_applyRule (Nat.lt_of_lt_of_le (Nat.lt_succ_self n) (Nat.le_max_left _ _))
    [] rule id pair w hw

end Walk

namespace OneWay

variable {α : Type} {k : OneWay} {n : Nat} {x : Apply → Walk α} {w : State}

/-- A walk that nests no deeper than the application of rules that it is given. -/
theorem within (hx : Monotone x) (once : ∀ apply, k.Nests n apply →
      wp (x apply) (fun _ w' => w'.Once n) (fun e w' => w'.Once n ∧ e ≠ .tooDeep) w) :
    Within k.rules k.direction n (x (start k.rules k.direction)) x w := by
  have ends (apply : Apply) (happly : k.Nests n apply) : (exec (x apply) w).1 ≠ .error .tooDeep :=
    fun he => ((wp_iff.mp (once apply happly)).2 _ he).2 rfl
  have hupto := ends _ nests_applyRuleUpTo
  have hstart := ends _ nests_start
  -- with more room than either has, both end in the same way
  have hsame : exec (x (start k.rules k.direction)) w =
      exec (x (applyRuleUpTo k.rules k.direction giveUp n [])) w :=
    (hx (approximates_startWith k.rules k.direction (n + 1)) w hstart).symm.trans
      (hx (approximates_applyRuleUpTo k.rules k.direction n) w hupto)
  refine ⟨rfl, fun beyond => ?_, hstart, fun fuel hfuel => ?_, ?_⟩
  · exact (hx (approximates_beyond beyond n []) w hupto).trans hsame.symm
  · exact (hx (approximates_applyRule hfuel []) w hupto).trans hsame.symm
  · exact exec_of_wp (I := State.Once n)
      (wp_mono (once _ nests_start) (fun _ _ hw => hw) fun _ _ hw => hw.1)

/-- A pass. -/
theorem within_syncRoots (h : k.scheme.Consistent w.graphs w.pairs) (hv : w.visited = [])
    (hn : (w.graphs.on k.source).size * k.rules.size < n) :
    Within k.rules k.direction n (syncRoots k.rules k.direction k.rootRule)
      (fun apply => syncRootsBy k.rules k.direction apply k.rootRule) w := by
  rw [syncRoots_eq]
  exact within (monotone_syncRootsBy k.rootRule) fun _ happly => once_syncRootsBy h hv hn happly

/-- The carrying over of an edit. -/
theorem within_carry (h : k.scheme.Consistent w.graphs w.pairs)
    (hn : (w.graphs.on k.source).size * k.rules.size < n) (c : Change) :
    Within k.rules k.direction n (carry k.rules k.direction k.source c)
      (fun apply => carryBy k.rules k.direction apply k.source c) w := by
  rw [carry_eq]
  exact within (monotone_carryBy k.source c) fun _ happly => once_carryBy h hn happly c

end OneWay

end GraphSync
