import GraphSync.Proofs.Merge.Bindings
import GraphSync.Proofs.Merge.Members

namespace GraphSync.Merge

open Walk Relation

variable {k : Scheme} {w w' : State} {path done : List CorrespondenceId}
  {c c' : Correspondence} {r : Rule} {child : Child} {s : Side} {m : ElementId} {apply : Apply}
  {id : CorrespondenceId} {pair : Sided ElementId}

theorem applyRule_again (rules : RuleSet) (d : Direction) (fuel : Nat) (r : Rule)
    (pair : Sided ElementId) (h : id ∈ path) :
    wp (applyRule rules d fuel path r id pair) (fun _ _ => False) (fun _ _ => True) w := by
  cases fuel with
  | zero => trivial
  | succ fuel =>
    rw [applyRule, wp_ite, if_pos h]
    trivial

/-- What a new pair needs for its rule to come back to a pair of `path`. -/
structure Circles (k : Scheme) (path : List CorrespondenceId) (c : Correspondence)
    (child : Child) (s : Side) (m : ElementId) (w : State) : Prop where
  consistent : k.Consistent w.graphs w.pairs
  alive : w.store.Alive
  entry : ∃ a ∈ w.pairs.entries, a.core = c.core
  inner : c.isAnchor = false
  member : m ∈ w.role c child s
  back : ∃ c' ∈ w.pairs.entries, c'.isAnchor = false ∧ c'.element s = m ∧ c'.id ∈ path

namespace Circles

theorem went (h : Circles k path c child s m w) {V : CorrespondenceId → Prop}
    (hw : k.Went .twoWay V w w') : Circles k path c child s m w' := by
  obtain ⟨a, ha, hcore⟩ := h.entry
  obtain ⟨c', hc', hi, he, hid⟩ := h.back
  obtain ⟨a₁, ha₁, hcore₁⟩ :=
    hw.acts.kept_inner h.consistent ha ((Correspondence.isAnchor_eq_of_core hcore).trans h.inner)
    (h.alive a ha)
  obtain ⟨c₁, hc₁, hcore₂⟩ := hw.acts.kept_inner h.consistent hc' hi (h.alive c' hc')
  refine ⟨hw.consistent, hw.acts.alive h.consistent h.alive,
    ⟨a₁, ha₁, hcore₁.trans hcore⟩, h.inner,
    hw.acts.members h.consistent (mem_authorities s) h.member, c₁, hc₁, ?_, ?_, ?_⟩
  · rw [Correspondence.isAnchor_eq_of_core hcore₂, hi]
  · rw [Correspondence.element_eq_of_core hcore₂, he]
  · rw [Correspondence.id_eq_of_core hcore₂]
    exact hid

theorem names (h : Circles k path c child s m w) (hr : k.rules.rule? c.rule = some r) :
    w.store.Names c.id r c.elements := by
  obtain ⟨a, ha, hcore⟩ := h.entry
  have hn : w.store.Names a.id r a.elements := .of_entry h.consistent ha (h.alive a ha)
    (Correspondence.rule_eq_of_core hcore ▸ hr)
  rwa [Correspondence.id_eq_of_core hcore, Correspondence.elements_eq_of_core hcore] at hn

/-- The member that leads back. -/
theorem linkMember (h : Circles k path c child s m w) (ht : ∀ s, k.rules.UniqueTypes s)
    (hr : k.rules.rule? c.rule = some r) (hchild : child ∈ r.children) (fuel : Nat)
    (earlier later : List ElementId) :
    wp (linkMember k.rules .twoWay (applyRule k.rules .twoWay fuel path) child s (c.element s.other)
      earlier m later) (fun _ _ => False) (fun _ _ => True) w := by
  refine Scheme.wp_linkMember (V := (· = c.id)) h.consistent (fun _ => h.names hr)
    ((RuleSet.mem_of_rule? hr).2 ▸ hr) rfl (mem_authorities s) hchild h.member earlier later
    (fun _ => trivial) (fun _ _ => trivial) ?_
  intro r' a w₁ hl
  obtain ⟨c', hc', _, he, hid⟩ := (h.went hl.went).back
  have halive := hl.went.acts.alive h.consistent h.alive
  obtain rfl : a = c' :=
    hl.went.consistent.apart halive (ht s) a hl.entry c' hc' (hl.member.trans he.symm)
  exact applyRule_again k.rules .twoWay fuel r' a.elements hid

theorem linkMembers (h : Circles k path c child s m w) (ht : ∀ s, k.rules.UniqueTypes s)
    (hr : k.rules.rule? c.rule = some r) (hchild : child ∈ r.children) (fuel : Nat)
    {ms : List ElementId} (earlier : List ElementId) (hms : ∀ x ∈ ms, x ∈ w.role c child s)
    (hm : m ∈ ms) :
    wp (linkMembers k.rules .twoWay (applyRule k.rules .twoWay fuel path) child s
      (c.element s.other) earlier ms) (fun _ _ => False) (fun _ _ => True) w := by
  induction ms generalizing earlier w with
  | nil => cases hm
  | cons x later ih =>
    rw [Walk.linkMembers, wp_bind]
    by_cases hx : m = x
    · subst x
      exact wp_imp (h.linkMember ht hr hchild fuel earlier later) fun _ _ hf => hf.elim
    · refine wp_mono (Scheme.traces_linkMember (V := (· = c.id)) (P := fun _ => True)
        (Scheme.applies_applyRule (.of_rule fun _ => trivial) trivial fuel path)
        (.of_rule fun _ => trivial) ((RuleSet.mem_of_rule? hr).2 ▸ hr) rfl (.refl h.consistent)
        (fun _ => h.names hr) (fun _ => trivial)
        (mem_authorities s) hchild (hms x (by simp)) earlier later) ?_ fun _ _ _ => trivial
      intro _ w₁ hw
      rw [wp_bind]
      refine wp_imp (ih (h.went hw) (x :: earlier) ?_ ?_) fun _ _ hf => hf.elim
      · exact fun y hy => hw.acts.members h.consistent (mem_authorities s) (hms y (by simp [hy]))
      · exact (List.mem_cons.mp hm).resolve_left hx

theorem syncRole (h : Circles k path c child s m w) (ht : ∀ s, k.rules.UniqueTypes s)
    (hr : k.rules.rule? c.rule = some r) (hchild : child ∈ r.children) (fuel : Nat) :
    wp (syncRole k.rules .twoWay (applyRule k.rules .twoWay fuel path) child s c.elements)
      (fun _ _ => False) (fun _ _ => True) w := by
  rw [Walk.syncRole, wp_bind, wp_graph, wp_bind, wp_liftGraph, Graph.references_eq]
  split
  · rename_i members hmembers
    split at hmembers
    · obtain rfl := Except.ok.inj hmembers
      rw [wp_bind]
      exact wp_imp (h.linkMembers ht hr hchild fuel [] (fun _ hx => hx) h.member) fun _ _ hf =>
        hf.elim
    · cases hmembers
  · trivial

end Circles

/-- Where applying a rule to a new pair leads back to a pair that is being worked on, it fails. -/
theorem refuses_applyRule (ht : ∀ s, k.rules.UniqueTypes s) (fuel : Nat)
    (path : List CorrespondenceId) : Refuses k path (applyRule k.rules .twoWay fuel path) := by
  intro w c r child s c' hk ha hc hi hnew hr hchild hc' hi' hm hid
  cases fuel with
  | zero => trivial
  | succ fuel =>
    rw [applyRule, wp_ite]
    split
    · trivial
    rw [wp_bind, wp_get, wp_ite, if_neg hnew, wp_bind, wp_modify]
    have hr' : k.rules.rule? r.name = some r := (RuleSet.mem_of_rule? hr).2 ▸ hr
    have h : Circles k (c.id :: path) c child s (c'.element s)
        { w with visited := c.id :: w.visited } :=
      ⟨hk, ha, ⟨c, hc, rfl⟩, hi, hm, c', hc', hi', rfl, hid⟩
    have happly (w : State) :
        k.Applies .twoWay (fun _ => True) w (applyRule k.rules .twoWay fuel (c.id :: path)) :=
      Scheme.applies_applyRule (.of_rule fun _ => trivial) trivial fuel (c.id :: path)
    let I := Circles k (c.id :: path) c child s (c'.element s)
    rw [applyParts, wp_bind]
    refine wp_imp (wp_forM_keep (I := I) ?_ h) ?_
    · intro bi hbi w₁ h₁
      rw [wp_bind]
      exact wp_mono
        (Scheme.traces_applyBinding (V := (· = c.id)) (P := fun _ => True) h₁.consistent
        (fun _ => h₁.names hr) (fun _ _ => trivial) hr' rfl hbi) (fun _ _ hw => h₁.went hw)
        fun _ _ _ => trivial
    · intro _ w₁ h₁
      have other {a : Child} (ha : a ∈ r.children) (u : Side) {w : State} (hw : I w) :
          wp (Walk.syncRole k.rules .twoWay (applyRule k.rules .twoWay fuel (c.id :: path))
            a u c.elements) (fun _ => I) (fun _ _ => True) w :=
        wp_mono (Scheme.traces_syncRole (V := (· = c.id)) (happly _) (.of_rule fun _ => trivial)
          hr' rfl (.refl hw.consistent) (hw.names hr) (mem_authorities u) ha)
          (fun _ _ h' => hw.went h') fun _ _ _ => trivial
      refine wp_forM_never (I := I) hchild ?_ ?_ h₁
      · exact fun a ha w₂ h₂ => wp_forM_keep (fun u _ _ h₃ => other ha u h₃) h₂
      · intro w₂ h₂
        exact wp_forM_never (I := I) (mem_authorities s) (fun u _ _ h₃ => other hchild u h₃)
          (fun _ h₃ => h₃.syncRole ht hr hchild fuel) h₂

/-- What is done when a rule is applied to one more pair: nothing, or it is done to the end with all
that is below. -/
theorem calls_applyRule (ht : ∀ s, k.rules.UniqueTypes s) (hu : ∀ s, k.rules.UniqueAttributes s)
    (w₀ : State) (fuel : Nat) (path : List CorrespondenceId) :
    Calls k w₀ path (applyRule k.rules .twoWay fuel path) := by
  induction fuel generalizing path with
  | zero => exact fun _ _ _ _ _ _ _ _ _ => trivial
  | succ fuel ih =>
    intro done w c r h hc hr hreached hgrounded
    have hr' : k.rules.rule? r.name = some r := (RuleSet.mem_of_rule? hr).2 ▸ hr
    refine (Scheme.applies_applyRule (P := fun _ => True) (.of_rule fun _ => trivial) trivial
      (fuel + 1) path r c w (.refl h.consistent) hr hc (h.alive c hc)).and ?_
    rw [applyRule, wp_ite]
    split
    · trivial
    · rename_i hpath
      rw [wp_bind, wp_get, wp_ite]
      split
      · rename_i hvisited
        exact ⟨[], h, ((List.mem_append.mp ((h.visited c.id).mp hvisited)).resolve_left hpath)⟩
      · rename_i hnew
        rw [wp_bind, wp_modify, applyParts, wp_bind]
        have hpush :=
          h.push ht hc hr (fun hin => hnew ((h.visited c.id).mpr hin)) hreached hgrounded
        refine wp_imp
          (hpush.bindings ht hu ⟨c, hc, rfl, rfl, hr⟩ (fun _ hbi => hbi) r.numbered_nodup) ?_
        rintro _ w₁ ⟨h₁, c₁, hc₁, hid, hpair, hr₁⟩
        rw [← hid] at h₁ ⊢
        have hchildren :=
          h₁.children ht (ih (c₁.id :: path))
            (refuses_applyRule ht fuel (c₁.id :: path)) hc₁ hr₁
        rw [hpair] at hchildren
        refine wp_imp hchildren ?_
        rintro _ w₂ ⟨new, h₂, hc₂, hroles⟩
        exact ⟨c₁.id :: new, h₂.pop hc₂ hroles, List.mem_append_left _ List.mem_cons_self⟩

end GraphSync.Merge
