import GraphSync.Proofs.Walk.Release

namespace GraphSync

open Walk

/-- A child of the rule walks this role. -/
def RuleSet.Walks (rules : RuleSet) (rule : RuleName) (s : Side) (role : RoleName) : Prop :=
  ∃ r, rules.rule? rule = some r ∧ ∃ child ∈ r.children, child.roles.on s = role

theorem RuleSet.walks_iff {rules : RuleSet} {rule : RuleName} {s : Side} {role : RoleName} :
    rules.Walks rule s role ↔
    (rules.rule? rule).any (fun r => r.childrenOn s role ≠ []) = true := by
  rw [Walks]
  cases rules.rule? rule <;> simp [Rule.childrenOn]

instance (rules : RuleSet) (rule : RuleName) (s : Side) (role : RoleName) :
    Decidable (rules.Walks rule s role) :=
  decidable_of_iff _ RuleSet.walks_iff.symm

namespace Correspondences

variable {t : Correspondences} {rules : RuleSet} {s : Side}

theorem walksRole_iff {x : ElementId} {role : RoleName} : t.walksRole rules s x role = true ↔
    ∃ c ∈ t.entries, c.element s = x ∧ rules.Walks c.rule s role := by
  simp only [walksRole, List.any_eq_true, RuleSet.walks_iff, ofElement, List.mem_filter,
    decide_eq_true_eq, and_assoc]

theorem walksRole_of_mem {c : Correspondence} (hc : c ∈ t.entries) {r : Rule}
    (hr : rules.rule? c.rule = some r) {child : Child} (hchild : child ∈ r.children) (s : Side) :
    t.walksRole rules s (c.element s) (child.roles.on s) = true :=
  walksRole_iff.mpr ⟨c, hc, rfl, r, hr, child, hchild, rfl⟩

end Correspondences

namespace Walk

variable {w w' w'' : State} {rules : RuleSet} {s : Side} {e : ElementId}
  {places places' : List (ElementId × RoleName)}

/-- An element was taken out of those roles of `places` that a rule of a recorded pair walks. -/
structure Unlinks (rules : RuleSet) (s : Side) (e : ElementId)
    (places : List (ElementId × RoleName)) (w w' : State) : Prop where
  sound : ∀ s, (w'.graphs.on s).Sound
  contains : ∀ s x, (w'.graphs.on s).contains x = (w.graphs.on s).contains x
  pairs : w'.pairs = w.pairs
  report : ∃ unlinked, w'.report = { w.report with referencesUnlinked := unlinked }
  other : w'.graphs.on s.other = w.graphs.on s.other
  mem_members : ∀ x role m, m ∈ (w'.graphs.on s).members x role ↔
    m ∈ (w.graphs.on s).members x role ∧
    ¬ (m = e ∧ (x, role) ∈ places ∧ w.pairs.walksRole rules s x role = true)

namespace Unlinks

/-- Where no rule walks the roles, nothing is to be done. -/
theorem refl (h : ∀ s, (w.graphs.on s).Sound)
    (hno : ∀ p ∈ places, w.pairs.walksRole rules s p.1 p.2 = false) :
    Unlinks rules s e places w w where
  sound := h
  contains _ _ := rfl
  pairs := rfl
  report := ⟨_, rfl⟩
  other := rfl
  mem_members x role m := by
    refine (and_iff_left ?_).symm
    rintro ⟨_, hin, hwalks⟩
    rw [hno (x, role) hin] at hwalks
    cases hwalks

theorem append (h : Unlinks rules s e places w w') (h' : Unlinks rules s e places' w' w'') :
    Unlinks rules s e (places ++ places') w w'' where
  sound := h'.sound
  contains s x := (h'.contains s x).trans (h.contains s x)
  pairs := h'.pairs.trans h.pairs
  report := by
    obtain ⟨_, hreport⟩ := h.report
    obtain ⟨unlinked, hreport'⟩ := h'.report
    exact ⟨unlinked, by rw [hreport', hreport]⟩
  other := h'.other.trans h.other
  mem_members x role m := by
    rw [h'.mem_members, h.mem_members, h.pairs, List.mem_append, and_assoc, ← not_or]
    refine and_congr_right fun _ => not_congr ?_
    rw [← and_or_left, ← or_and_right]

/-- The element leaves one role. -/
theorem drop (h : ∀ s, (w.graphs.on s).Sound) {x : ElementId} {role : RoleName}
    (hwalks : w.pairs.walksRole rules s x role = true) (unlinked : Nat) :
    Unlinks rules s e [(x, role)] w { w with
      graphs := w.graphs.put s ((w.graphs.on s).dropReference x role e)
      report := { w.report with referencesUnlinked := unlinked } } where
  sound t := by
    by_cases ht : t = s
    · subst t
      rw [Sided.on_put_self]
      exact ((h s).dropReference x role e).sound
    · rw [Sided.on_put_of_ne _ _ ht]
      exact h t
  contains t y := by
    by_cases ht : t = s
    · subst t
      rw [Sided.on_put_self]
      exact ((h s).relists_dropReference x role e).contains y
    · rw [Sided.on_put_of_ne _ _ ht]
  pairs := rfl
  report := ⟨unlinked, rfl⟩
  other := Sided.on_put_of_ne _ _ s.ne_other.symm
  mem_members y r m := by
    rw [Sided.on_put_self, ((h s).relists_dropReference x role e).members]
    by_cases hp : y = x ∧ r = role
    · obtain ⟨rfl, rfl⟩ := hp
      simp [hwalks]
    · rw [if_neg hp]
      refine (and_iff_left ?_).symm
      rintro ⟨_, hin, _⟩
      exact hp (Prod.ext_iff.mp (List.mem_singleton.mp hin))

end Unlinks

theorem unlinks_unlinkWalked (h : ∀ s, (w.graphs.on s).Sound) (rules : RuleSet) (s : Side)
    (e : ElementId) :
    wp (unlinkWalked rules s e) (fun _ => Unlinks rules s e ((w.graphs.on s).referrers e) w)
      (fun _ _ => False) w := by
  rw [unlinkWalked, wp_bind, wp_graph]
  refine wp_forM_worked (I := fun pre => Unlinks rules s e pre w) ?_ (.refl h (by simp))
  rintro pre ⟨x, role⟩ post hsplit w₁ h₁
  have hlive : (w₁.graphs.on s).contains x = true := by
    rw [h₁.contains]
    have hreferrer : (x, role) ∈ (w.graphs.on s).referrers e := by
      rw [hsplit]
      simp
    exact Graph.contains_of_mem_referrers hreferrer
  rw [wp_bind, wp_pairs, wp_ite]
  split
  · rename_i hwalks
    exact wp_unlink (fun hdead => Bool.noConfusion (hdead.symm.trans hlive))
      fun _ unlinked _ => h₁.append (.drop h₁.sound hwalks unlinked)
  · rename_i hwalks
    exact h₁.append (.refl h₁.sound (by simpa using hwalks))

/-- The pairs of `lost` are dropped in their order, and `m` leaves the role on the way: it is the
survivor of one of them, and a rule walks the role for a pair that is not dropped before that
one. -/
def Leaves (rules : RuleSet) (d : Direction) (lost : List (Correspondence × Side))
    (t : Correspondences) (s : Side) (x : ElementId) (role : RoleName) (m : ElementId) : Prop :=
  ∃ p ∈ lost, p.2.other = s ∧ d.deletesFrom p.2 = true ∧ p.1.element s = m ∧
    ∃ a ∈ t.entries, a.element s = x ∧ rules.Walks a.rule s role ∧
      ∀ q ∈ lost, q.1.id = a.id → p.1.id.index ≤ a.id.index

/-- The pairs of `lost` were dropped in their order, and their survivors left the roles that they
had to leave. -/
structure Sheds (rules : RuleSet) (d : Direction) (lost : List (Correspondence × Side))
    (w w' : State) : Prop where
  sound : ∀ s, (w'.graphs.on s).Sound
  entries : ∀ a, a ∈ w'.pairs.entries ↔ a ∈ w.pairs.entries ∧
    ∀ p ∈ lost, p.1.id ≠ a.id
  report : ∃ unlinked, w'.report =
    { w.report with referencesUnlinked := unlinked, pairsReleased :=
      w.report.pairsReleased + lost.length }
  mem_members : ∀ s x role m, m ∈ (w'.graphs.on s).members x role ↔
    m ∈ (w.graphs.on s).members x role ∧ ¬ Leaves rules d lost w.pairs s x role m

namespace Sheds

variable {d : Direction} {lost : List (Correspondence × Side)} {p : Correspondence × Side}

theorem refl (h : ∀ s, (w.graphs.on s).Sound) : Sheds rules d [] w w where
  sound := h
  entries := by simp
  report := ⟨_, rfl⟩
  mem_members := by simp [Leaves]

/-- What is dropped first is older than the rest, so that it walks no role for the survivors of the
rest. -/
theorem cons (h : Sheds rules d [p] w w') (h' : Sheds rules d lost w' w'')
    (hlt : ∀ q ∈ lost, p.1.id.index < q.1.id.index) : Sheds rules d (p :: lost) w w'' where
  sound := h'.sound
  entries a := by
    rw [h'.entries, h.entries]
    simp [and_assoc]
  report := by
    obtain ⟨_, hreport⟩ := h.report
    obtain ⟨unlinked, hreport'⟩ := h'.report
    refine ⟨unlinked, ?_⟩
    simp only [hreport', hreport, List.length_cons, List.length_nil]
    rw [Nat.zero_add, Nat.add_assoc, Nat.add_comm 1]
  mem_members s x role m := by
    have hsplit : Leaves rules d (p :: lost) w.pairs s x role m ↔
        Leaves rules d [p] w.pairs s x role m ∨ Leaves rules d lost w'.pairs s x role m := by
      constructor
      · rintro ⟨q, hq, hside, hdeletes, hm, a, ha, hx, hwalks, hbefore⟩
        rcases List.mem_cons.mp hq with rfl | hlater
        · refine .inl
            ⟨q, List.mem_singleton_self q, hside, hdeletes, hm, a, ha, hx, hwalks,
              fun q' hq' => ?_⟩
          exact hbefore q' (List.mem_cons.mpr (.inl (List.mem_singleton.mp hq')))
        · have hrecorded : a ∈ w'.pairs.entries := by
            refine (h.entries a).mpr ⟨ha, fun p' hp' hid => ?_⟩
            rw [List.mem_singleton.mp hp'] at hid
            have hle := hbefore p List.mem_cons_self hid
            have hgt := hlt q hlater
            rw [hid] at hgt
            exact Nat.not_lt.mpr hle hgt
          exact .inr ⟨q, hlater, hside, hdeletes, hm, a, hrecorded, hx, hwalks, fun q' hq' =>
            hbefore q' (List.mem_cons_of_mem p hq')⟩
      · rintro (⟨q, hq, hside, hdeletes, hm, a, ha, hx, hwalks, _⟩ | ⟨q, hq, hside, hdeletes, hm, a,
          ha, hx, hwalks, hbefore⟩)
        · obtain rfl := List.mem_singleton.mp hq
          refine ⟨q, List.mem_cons_self, hside, hdeletes, hm, a, ha, hx, hwalks,
            fun q' hq' hid => ?_⟩
          rcases List.mem_cons.mp hq' with rfl | hq'
          · exact Nat.le_of_eq (congrArg CorrespondenceId.index hid)
          · exact hid ▸ Nat.le_of_lt (hlt q' hq')
        · obtain ⟨hold, hnew⟩ := (h.entries a).mp ha
          refine ⟨q, List.mem_cons_of_mem p hq, hside, hdeletes, hm, a, hold, hx, hwalks,
            fun q' hq' hid => ?_⟩
          rcases List.mem_cons.mp hq' with rfl | hq'
          · exact absurd hid (hnew q' (List.mem_singleton_self q'))
          · exact hbefore q' hq' hid
    rw [h'.mem_members, h.mem_members, hsplit, and_assoc, not_or]

theorem members (h : Sheds rules d lost w w') {x m : ElementId} {role : RoleName}
    (hm : m ∈ (w'.graphs.on s).members x role) : m ∈ (w.graphs.on s).members x role :=
  ((h.mem_members s x role m).mp hm).1

/-- What has not lost its counterpart stays. -/
theorem stays (h : Sheds rules d lost w w') {x m : ElementId} {role : RoleName}
    (hm : m ∈ (w.graphs.on s).members x role)
    (hno : ∀ p ∈ lost, p.2.other = s → p.1.element s ≠ m) :
    m ∈ (w'.graphs.on s).members x role := by
  refine (h.mem_members s x role m).mpr ⟨hm, ?_⟩
  rintro ⟨p, hp, hside, _, he, _⟩
  exact hno p hp hside he

/-- A survivor is in no role that a rule walks for a pair that is left. -/
theorem leaves (h : Sheds rules d lost w w') (hp : p ∈ lost) (hd : d.deletesFrom p.2 = true)
    {x : ElementId} {role : RoleName} (hwalks : w'.pairs.walksRole rules p.2.other x role = true) :
    p.1.element p.2.other ∉ (w'.graphs.on p.2.other).members x role := by
  intro hm
  obtain ⟨a, ha, hx, hrule⟩ := Correspondences.walksRole_iff.mp hwalks
  obtain ⟨ha, hleft⟩ := (h.entries a).mp ha
  exact ((h.mem_members _ x role _).mp hm).2
    ⟨p, hp, rfl, hd, rfl, a, ha, hx, hrule, fun q hq hid => absurd hid (hleft q hq)⟩

end Sheds

theorem sheds_releaseLost (h : ∀ s, (w.graphs.on s).Sound) (rules : RuleSet) (d : Direction)
    (c : Correspondence) (s : Side) :
    wp (releaseLost rules d c s) (fun _ => Sheds rules d [(c, s)] w) (fun _ _ => False) w := by
  have hentries (a : Correspondence) : a ∈ (w.pairs.remove c.id).entries ↔
      a ∈ w.pairs.entries ∧ ∀ p ∈ [(c, s)], p.1.id ≠ a.id := by
    simp [Correspondences.remove, ne_comm]
  have hleaves (t : Side) (x : ElementId) (role : RoleName) (m : ElementId) :
      Leaves rules d [(c, s)] w.pairs t x role m ↔ s.other = t ∧ d.deletesFrom s = true ∧
        c.element t = m ∧ w.pairs.walksRole rules t x role = true := by
    rw [Correspondences.walksRole_iff]
    constructor
    · rintro ⟨p, hp, hside, hdeletes, hm, a, ha, hx, hwalks, _⟩
      obtain rfl := List.mem_singleton.mp hp
      exact ⟨hside, hdeletes, hm, a, ha, hx, hwalks⟩
    · rintro ⟨hside, hdeletes, hm, a, ha, hx, hwalks⟩
      refine ⟨(c, s), List.mem_singleton_self _, hside, hdeletes, hm, a, ha, hx, hwalks,
        fun q hq hid => ?_⟩
      rw [List.mem_singleton.mp hq] at hid
      exact Nat.le_of_eq (congrArg CorrespondenceId.index hid)
  rw [releaseLost, wp_bind, wp_graph, wp_ite]
  split
  · rename_i hcond
    have hdeletes := (Bool.and_eq_true_iff.mp hcond).1
    rw [wp_bind]
    refine wp_imp (unlinks_unlinkWalked h rules s.other _) fun _ w₁ h₁ => ?_
    rw [wp_releasePair, h₁.pairs]
    obtain ⟨unlinked, hreport⟩ := h₁.report
    refine ⟨h₁.sound, hentries, ⟨unlinked, by rw [hreport]; rfl⟩, fun t x role m => ?_⟩
    rw [hleaves]
    rcases s.other.eq_or_eq_other t with rfl | rfl
    · rw [h₁.mem_members]
      refine and_congr_right fun hm => not_congr ⟨?_, ?_⟩
      · rintro ⟨he, _, hwalks⟩
        exact ⟨rfl, hdeletes, he.symm, hwalks⟩
      · rintro ⟨_, _, he, hwalks⟩
        exact ⟨he.symm, Graph.Sound.mem_referrers (he.symm ▸ hm), hwalks⟩
    · rw [h₁.other]
      exact (and_iff_left fun hno => s.other.ne_other hno.1).symm
  · rename_i hcond
    rw [wp_releasePair]
    refine ⟨h, hentries, ⟨_, rfl⟩, fun t x role m => ?_⟩
    rw [hleaves]
    -- a survivor that is gone as well is in no role
    refine (and_iff_left_of_imp fun hm => ?_).symm
    rintro ⟨rfl, hdeletes, rfl, _⟩
    exact hcond (Bool.and_eq_true_iff.mpr ⟨hdeletes, (h s.other).members_live x role _ hm⟩)

theorem sheds_forM_releaseLost (rules : RuleSet) (d : Direction)
    {lost : List (Correspondence × Side)}
    (hsorted : lost.Pairwise fun p q => p.1.id.index < q.1.id.index)
    (h : ∀ s, (w.graphs.on s).Sound) :
    wp (lost.forM fun (c, s) => releaseLost rules d c s) (fun _ => Sheds rules d lost w)
      (fun _ _ => False) w := by
  induction lost generalizing w with
  | nil => exact .refl h
  | cons p lost ih =>
    obtain ⟨hlt, hsorted⟩ := List.pairwise_cons.mp hsorted
    rw [wp_forM_cons]
    refine wp_imp (sheds_releaseLost h rules d p.1 p.2) fun _ w₁ h₁ => ?_
    exact wp_imp (ih hsorted h₁.sound) fun _ w₂ h₂ => h₁.cons h₂ hlt

theorem State.lost_sorted (h : w.pairs.Listed) :
    w.lost.Pairwise fun p q => p.1.id.index < q.1.id.index := by
  have hfst : (w.lost.map Prod.fst).Pairwise fun a b => a.id.index < b.id.index := by
    rw [State.fst_lost]
    exact (h.sorted.filter _).filter _
  rw [List.pairwise_map] at hfst
  exact hfst

theorem sheds_releaseAllLost (h : ∀ s, (w.graphs.on s).Sound) (hl : w.pairs.Listed)
    (rules : RuleSet) (d : Direction) :
    wp (releaseAllLost rules d) (fun _ => Sheds rules d w.lost w) (fun _ _ => False) w := by
  rw [releaseAllLost, wp_bind, wp_get]
  exact sheds_forM_releaseLost rules d (State.lost_sorted hl) h

end Walk

end GraphSync
