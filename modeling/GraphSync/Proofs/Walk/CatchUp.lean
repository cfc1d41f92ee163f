import GraphSync.Proofs.Walk.Relink
import GraphSync.Proofs.Walk.Trail

namespace GraphSync

open Walk

namespace Pass

variable {α β : Type} {p : Pass} {o o' : Debts} {still : Prop} {G : List CorrespondenceId}
  {D : List Frame} {w₀ w w' : State} {c : Correspondence} {r : Rule} {child : Child}
  {e m : ElementId} {Y : Due → Prop}

/-- A walk that carries an edit over has come from `w₀`. If `still`, no rule was applied. -/
structure Brought (p : Pass) (still : Prop) (w₀ : State) (o : Debts) (w : State) : Prop where
  carrying : ∃ G D, p.Carrying o G D w ∧ (∀ id ∈ G, id.index < w₀.pairs.next) ∧
    (still → D = [])
  grows : p.Grows w₀ w
  kept : ∀ c ∈ w₀.pairs.entries, ∃ c' ∈ w.pairs.entries, c'.core = c.core

namespace Brought

/-- Only pairs that were there at the start, and have a live source, can be behind. -/
theorem mono (h : p.Brought still w₀ o w)
    (ho : ∀ c ∈ w.pairs.entries, (∃ c₀ ∈ w₀.pairs.entries, c.core = c₀.core) →
    p.base.contains (c.element p.source) = true → ∀ r,
      p.rules.rule? c.rule = some r → ∀ due, p.Asks w c r due →
      o c.id (c.element p.source) due → o' c.id (c.element p.source) due) :
    p.Brought still w₀ o' w := by
  obtain ⟨⟨G, D, hc, hold, hstill⟩, hg, hkept⟩ := h
  refine ⟨⟨G, D, hc.mono fun c hm hid hlive r hr due => ?_, hold, hstill⟩, hg, hkept⟩
  exact ho c hm (hg.old_of_id hm (hold _ hid)) hlive r hr due

theorem refl (h : p.Carrying o G [] w) : p.Brought still w o w :=
  ⟨⟨G, [], h, h.bounded, fun _ => rfl⟩, .refl p w, fun c hc => ⟨c, hc, rfl⟩⟩

theorem carries (h : p.Brought still w₀ o w) : ∃ G D, p.Carrying o G D w := by
  obtain ⟨G, D, hc, _⟩ := h.carrying
  exact ⟨G, D, hc⟩

/-- A step of the walk. -/
theorem step {G' : List CorrespondenceId} {D' : List Frame} (h : p.Brought still w₀ o w)
    (hc : p.Carrying o G D w) (hold : ∀ id ∈ G, id.index < w₀.pairs.next)
    (hc' : p.Carrying o' G' D' w') (hsub : G' ⊆ G) (hg : p.Grows w w')
    (hstill : still → D' = []) : p.Brought still w₀ o' w' := by
  refine ⟨⟨G', D', hc', fun id hid => hold id (hsub hid), hstill⟩, h.grows.trans hg,
    fun c hm => ?_⟩
  obtain ⟨c₁, hm₁, hcore₁⟩ := h.kept c hm
  obtain ⟨c₂, hm₂, hcore₂⟩ := hc.kept hc' hg hm₁
  exact ⟨c₂, hm₂, hcore₂.trans hcore₁⟩

section Loops

variable {E : Error → State → Prop} {l : List α} {Z : α → CorrespondenceId → Due → Prop}

private theorem drop_append {pre : List α} {a : α}
    (h : p.Brought still w₀ ((o.drop fun id due => ∃ b ∈ pre, Z b id due).drop
    (Z a)) w) : p.Brought still w₀ (o.drop fun id due => ∃ b ∈ pre ++ [a], Z b id due) w := by
  refine h.mono
    fun _ _ _ _ _ _ _ _ ⟨⟨howed, hpre⟩, ha⟩ => ⟨howed, fun ⟨b, hb, hpaid⟩ => ?_⟩
  rcases List.mem_append.mp hb with hb | hb
  · exact hpre ⟨b, hb, hpaid⟩
  · exact ha (List.mem_singleton.mp hb ▸ hpaid)

private theorem drop_nil (h : p.Brought still w₀ o w) :
    p.Brought still w₀ (o.drop fun id due => ∃ b ∈ ([] : List α), Z b id due) w :=
  h.mono fun _ _ _ _ _ _ _ _ howed => ⟨howed, fun ⟨_, hb, _⟩ => by cases hb⟩

/-- What the rounds of a loop pay, the loop pays. -/
theorem forM {f : α → Walk Unit} (h : p.Brought still w₀ o w)
    (step : ∀ a ∈ l, ∀ o w, p.Brought still w₀ o w →
      wp (f a) (fun _ => p.Brought still w₀ (o.drop (Z a))) E w) :
    wp (l.forM f)
      (fun _ => p.Brought still w₀ (o.drop fun id due => ∃ a ∈ l, Z a id due)) E w := by
  refine wp_forM_worked
    (I := fun pre => p.Brought still w₀ (o.drop fun id due => ∃ a ∈ pre, Z a id due))
    (fun pre a post hl w₁ h₁ => ?_) h.drop_nil
  exact wp_imp (step a (by simp [hl]) _ w₁ h₁) fun _ _ h₂ => h₂.drop_append

theorem mapM {f : α → Walk β} (h : p.Brought still w₀ o w)
    (step : ∀ a ∈ l, ∀ o w, p.Brought still w₀ o w →
      wp (f a) (fun _ => p.Brought still w₀ (o.drop (Z a))) E w) :
    wp (l.mapM f)
      (fun _ => p.Brought still w₀ (o.drop fun id due => ∃ a ∈ l, Z a id due)) E w := by
  refine wp_mapM_worked
    (I := fun pre => p.Brought still w₀ (o.drop fun id due => ∃ a ∈ pre, Z a id due))
    (fun pre a post hl w₁ h₁ => ?_) h.drop_nil
  exact wp_imp (step a (by simp [hl]) _ w₁ h₁) fun _ _ h₂ => h₂.drop_append

end Loops

/-- What is done for a pair of the edited element, found by its handle. It was recorded from the
start. -/
theorem ofPair {E : Error → State → Prop} {absent : α}
    {f : Correspondence → Rule → Walk α} {id : CorrespondenceId} (h : p.Brought still w₀ o w)
    (hid : id ∈ (w₀.pairs.ofElement p.source e).map (·.id))
    (step : ∀ c r, c ∈ w.pairs.entries → c.id = id → c.element p.source = e →
      (∀ o w', p.Brought still w₀ o w' → ∃ c' ∈ w'.pairs.entries, c'.core = c.core) →
        p.rules.rule? c.rule = some r →
          wp (f c r)
            (fun _ => p.Brought still w₀ (o.drop fun id' due => id' = id ∧ Y due)) E w) :
    wp (do
      let some c := (← pairs).get? id | return absent
      let rule ← liftRule (p.rules.rule c.rule)
      f c rule) (fun _ => p.Brought still w₀ (o.drop fun id' due => id' = id ∧ Y due)) E w := by
  obtain ⟨G, D, hcarrying, _⟩ := h.carrying
  rw [wp_bind, wp_pairs]
  split
  · rename_i c hget
    have hc := List.mem_of_find?_eq_some hget
    have hi : c.id = id := by simpa using List.find?_some hget
    obtain ⟨r, hr, _⟩ := hcarrying.consistent.typed c hc
    obtain ⟨c₀, hm₀, he₀, hi₀⟩ := Correspondences.mem_handles.mp hid
    obtain ⟨c₁, hm₁, hcore⟩ := h.kept c₀ hm₀
    obtain rfl := hcarrying.coherent.listed.eq_of_id hm₁ hc
      ((Correspondence.id_eq_of_core hcore).trans (hi₀.trans hi.symm))
    rw [wp_bind, wp_liftRule, RuleSet.rule_eq, show p.rules.rule? c₁.rule = some r from hr]
    refine step c₁ r hc hi ?_ (fun o w' h' => ?_) hr
    · rw [Correspondence.element_eq_of_core hcore, he₀]
    · obtain ⟨c', hm', hcore'⟩ := h'.kept c₀ hm₀
      exact ⟨c', hm', hcore'.trans hcore.symm⟩
  · rename_i hget
    refine h.mono fun c hc _ _ _ _ _ _ howed => ⟨howed, fun hpaid => ?_⟩
    have hfound := hcarrying.coherent.listed.get?_eq hc
    rw [hpaid.1] at hfound
    exact absurd hfound (hget c)

/-- What the edit calls for at one pair was done for everything in its rule that is concerned. -/
theorem ofItems {id : CorrespondenceId} {items : List β} {due : β → Due}
      (h : p.Brought still w₀ (o.drop fun id' due' => ∃ b ∈ items, id' = id ∧ due' = due b) w)
    (hc : ∃ c' ∈ w.pairs.entries, c'.core = c.core) (hid : c.id = id)
    (hr : p.rules.rule? c.rule = some r)
    (hitems : ∀ due', p.Asks w c r due' → Y due' → ∃ b ∈ items, due' = due b) :
    p.Brought still w₀ (o.drop fun id' due => id' = id ∧ Y due) w := by
  obtain ⟨c', hc', hcore⟩ := hc
  obtain ⟨_, _, hcarrying, _⟩ := h.carrying
  refine h.mono fun c₁ hc₁ _ _ r₁ hr₁ due' hasks ⟨howed, hunpaid⟩ => ⟨howed,
    fun ⟨hid₁, hy⟩ => ?_⟩
  -- the entry with that handle is that of the pair
  obtain rfl := hcarrying.coherent.listed.eq_of_id hc₁ hc'
    (hid₁.trans ((Correspondence.id_eq_of_core hcore).trans hid).symm)
  rw [Correspondence.rule_eq_of_core hcore, hr] at hr₁
  cases hr₁
  obtain ⟨b, hb, hdue⟩ := hitems due' (hasks.core hcore.symm) hy
  exact hunpaid ⟨b, hb, hid₁, hdue⟩

/-- When all pairs of the edited element were seen to, nothing that the edit calls for is owed. -/
theorem settle (h : p.Brought still w (o.drop fun id due =>
      ∃ i ∈ (w.pairs.ofElement p.source e).map (·.id), id = i ∧ Y due) w')
    (ho : ∀ id x due, o id x due → o' id x due ∨ (x = e ∧ Y due)) :
    p.Brought still w o' w' := by
  refine h.mono fun c _ ⟨c₀, hc₀, hcore⟩ _ _ _ due _ ⟨howed, hunpaid⟩ => ?_
  refine (ho _ _ due howed).resolve_right fun ⟨hel, hdue⟩ =>
    hunpaid ⟨c₀.id, ?_, Correspondence.id_eq_of_core hcore, hdue⟩
  rw [Correspondence.element_eq_of_core hcore] at hel
  exact Correspondences.mem_handles.mpr ⟨c₀, hc₀, hel, rfl⟩

end Brought

namespace Carrying

/-- Deleted elements of the source side are noted. -/
theorem note {deleted : List (Side × ElementId)} (h : p.Carrying o G D w)
    (hd : ∀ x ∈ deleted, x ∈ w.deleted ∨ (x.1 = p.source ∧ p.base.contains x.2 = false)) :
    p.Carrying o G D { w with deleted } := by
  have hl := h.coherent.listed
  refine ⟨h.pass, h.steady.moved h.pass (.of_same rfl rfl) h.coherent rfl (fun _ hc => h.alive hc)
    h.anchored, h.consistent, ?_,
    h.bounded, h.nodup, h.roots, fun x hx => (hd x hx).elim (h.gone x) id⟩
  exact Behind.keeps h.behind (.of_same rfl rfl) hl hl h.steady.sound h.bounded
    fun _ hc _ _ => ⟨hc, fun _ => rfl⟩

theorem carryAttribute {name : AttributeName} {before after : Value} (h : p.Carrying o G [] w)
      (ho : ∀ id x due,
      o id x due → o' id x due ∨
        (x = e ∧ (Effect.attributeSet name before after).Calls p.source due)) :
    wp (carryAttribute p.rules p.direction p.source e name) (fun _ => p.Brought True w o')
      (fun _ _ => True) w := by
  have start : p.Brought True w o w := .refl h
  rw [Walk.carryAttribute, wp_bind, wp_graph, wp_ite]
  split
  · rename_i hdead
    refine start.mono fun c _ _ hlive _ _ due _ howed => (ho _ _ due howed).resolve_right ?_
    rintro ⟨hel, _⟩
    rw [hel, ← h.steady.source] at hlive
    simp [hlive] at hdead
  rw [wp_bind, wp_pairs, wp_bind]
  refine wp_imp
    (start.mapM fun id hid o₁ w₁ h₁ => h₁.ofPair hid fun c r hc hi he hkept hr => ?_)
    fun _ _ hend => hend.settle ho
  have hname := (RuleSet.mem_of_rule? hr).2
  rw [wp_bind]
  refine wp_imp
    (h₁.mapM (Z := fun bi id' due => id' = id ∧ due = .value bi) fun bi hbi o₂ w₂ h₂ => ?_)
    fun _ w₃ h₃ => ?_
  · obtain ⟨c', hc', hcore⟩ := hkept o₂ w₂ h₂
    obtain ⟨G₂, D₂, hcarrying, hold, hnone⟩ := h₂.carrying
    have hD : c'.id ∉ D₂.map Frame.id := by simp [hnone trivial]
    have hspec := hcarrying.applyBinding hc' hD ((Correspondence.rule_eq_of_core hcore).symm ▸ hr)
      (Rule.mem_bindingsOn.mp hbi).1
    rw [Correspondence.id_eq_of_core hcore, Correspondence.elements_eq_of_core hcore, hi] at hspec
    exact wp_imp hspec fun _ w₃ hstep =>
      h₂.step hcarrying hold hstep.2 (fun _ hi => hi) hstep.1 hnone
  · refine h₃.ofItems (hkept _ _ h₃) hi hr ?_
    intro due hasks hcalls
    obtain ⟨bi, rfl, hattr⟩ := Effect.calls_attributeSet hcalls
    exact ⟨bi, Rule.mem_bindingsOn.mpr ⟨hasks, hattr⟩, rfl⟩

theorem carryAddition {role : RoleName} {index : Nat} (h : p.Carrying o G [] w)
      (ho : ∀ id x due, o id x due →
      o' id x due ∨ (x = e ∧ (Effect.referenceAdded role index m).Calls p.source due)) :
    wp (carryAddition p.rules p.direction p.source e role m) (fun _ => p.Brought False w o')
      (fun _ _ => True) w := by
  have start : p.Brought False w o w := .refl h
  apply wp_carryAddition (h.consistent.sound p.source)
  · -- an edit that was taken back calls for nothing
    intro hmoot
    refine start.mono fun c _ _ _ _ _ due hasks howed => (ho _ _ due howed).resolve_right ?_
    rintro ⟨hel, hcalls⟩
    obtain ⟨child, rfl, rfl⟩ := Effect.calls_referenceAdded hcalls
    obtain ⟨_, hm⟩ := hasks
    rw [State.role, hel] at hm
    exact hmoot hm
  intro earlier later hsplit
  have hm : m ∈ p.base.members e role := by
    rw [← h.steady.source, hsplit]
    simp
  refine wp_imp
    (start.forM fun id hid o₁ w₁ h₁ => h₁.ofPair hid fun c r hc hi he hkept hr => ?_)
    fun _ _ hend => hend.settle ho
  refine wp_imp (h₁.forM (Z := fun child id' due => id' = id ∧ due = .addition child m)
    fun child hchild o₂ w₂ h₂ => ?_) fun _ w₃ h₃ => ?_
  · obtain ⟨hin, hrole⟩ := Rule.mem_childrenOn.mp hchild
    obtain ⟨c', hc', hcore⟩ := hkept o₂ w₂ h₂
    obtain ⟨G₂, D₂, hcarrying, hold, _⟩ := h₂.carrying
    have hel := Correspondence.element_eq_of_core hcore
    rw [wp_bind]
    have hspec :=
      hcarrying.link hc' ((Correspondence.rule_eq_of_core hcore).symm ▸ hr) hin (m := m)
      (by rw [hel, he, hrole]; exact hm)
    rw [hel, Correspondence.id_eq_of_core hcore, hi] at hspec
    refine wp_imp (hspec _ _) ?_
    rintro _ w₃ ⟨G₃, D₃, h₃, hsub, hg⟩
    exact h₂.step hcarrying hold h₃ hsub hg False.elim
  · refine h₃.ofItems (hkept _ _ h₃) hi hr ?_
    intro due hasks hcalls
    obtain ⟨child, rfl, hrole⟩ := Effect.calls_referenceAdded hcalls
    exact ⟨child, Rule.mem_childrenOn.mpr ⟨hasks.1, hrole⟩, rfl⟩

/-- All counterparts of an element that is no member leave a role of a pair. -/
theorem unlinkPartners (h : p.Carrying o G D w) (hc : c ∈ w.pairs.entries)
    (hD : c.id ∉ D.map Frame.id) (hr : p.rules.rule? c.rule = some r)
    (hchild : child ∈ r.children)
    (hm : m ∉ p.base.members (c.element p.source) (child.roles.on p.source)) :
    wp (((w.pairs.partners p.source m).filter (· ∈ w.role c child p.target)).forM fun y =>
        Walk.unlink p.target (c.element p.target) (child.roles.on p.target) y)
      (fun _ w' => p.Carrying (o.pay c.id (.removal child m)) G D w' ∧ p.Grows w w')
      (fun _ _ => False) w := by
  let I (pre : List ElementId) (w' : State) : Prop :=
    p.Carrying o G D w' ∧ p.Grows w w' ∧ w'.pairs = w.pairs ∧
    ∀ y, y ∈ w'.role c child p.target ↔ y ∈ w.role c child p.target ∧ y ∉ pre
  have start : I [] w := ⟨h, .refl p w, rfl, fun y => by simp⟩
  refine wp_imp (wp_forM_worked (I := I) (fun pre y post hl w₁ ⟨h₁, hg₁, hp₁, hr₁⟩ => ?_) start) ?_
  · have hy : y ∈ w.pairs.partners p.source m := by
      have hmem : y ∈ (w.pairs.partners p.source m).filter (· ∈ w.role c child p.target) := by
        simp [hl]
      exact (List.mem_filter.mp hmem).1
    obtain ⟨a, ha, rfl, rfl⟩ := Correspondences.mem_partners.mp hy
    rw [← hp₁] at hc ha
    refine wp_imp (h₁.unlink hc hD hr hchild ha hm) ?_
    rintro _ w₂ ⟨h₂, hg₂, hp₂, hrole⟩
    refine ⟨h₂, hg₁.trans hg₂, hp₂.trans hp₁, fun z => ?_⟩
    rw [hrole, List.mem_filter, hr₁]
    simp [and_assoc]
  · rintro _ w' ⟨h', hg, hp, hrole⟩
    refine ⟨h'.mono fun b hb _ _ r' hr' due hasks howed => ⟨howed, ?_⟩, hg⟩
    rintro ⟨hid, rfl⟩
    rw [hp] at hb
    obtain rfl := h.coherent.listed.eq_of_id hb hc hid
    -- none of its counterparts is left
    obtain ⟨_, _, a, ha, hel, hin⟩ := hasks
    obtain ⟨hin, hout⟩ := (hrole _).mp hin
    refine hout
      (List.mem_filter.mpr ⟨Correspondences.mem_partners.mpr ⟨a, hp ▸ ha, hel, rfl⟩, ?_⟩)
    simpa using hin

theorem carryRemoval {role : RoleName} {index : Nat} (h : p.Carrying o G [] w)
      (ho : ∀ id x due, o id x due →
      o' id x due ∨ (x = e ∧ (Effect.referenceRemoved role index m).Calls p.source due)) :
    wp (carryRemoval p.rules p.source e role m) (fun _ => p.Brought True w o')
      (fun _ _ => True) w := by
  have start : p.Brought True w o w := .refl h
  apply wp_carryRemoval
  · -- a member that is back in the role calls for nothing
    intro hback
    refine start.mono fun c _ _ _ _ _ due hasks howed => (ho _ _ due howed).resolve_right ?_
    rintro ⟨hel, hcalls⟩
    obtain ⟨child, rfl, rfl⟩ := Effect.calls_referenceRemoved hcalls
    obtain ⟨_, hout, _⟩ := hasks
    rw [State.role, hel] at hout
    exact hout hback
  intro hm
  rw [h.steady.source] at hm
  refine wp_imp (start.forM fun id hid o₁ w₁ h₁ => h₁.ofPair
    (Y := (Effect.referenceRemoved role index m).Calls p.source) hid
    fun c r hc hi he hkept hr => ?_) fun _ w₁ hend deleted hdeleted => ?_
  · obtain ⟨_, _, hcarrying₁, _⟩ := h₁.carrying
    have hlive : (w₁.graphs.on p.source.other).contains (c.element p.source.other) = true :=
      hcarrying₁.alive hc
    rw [wp_bind, wp_graph, wp_ite, if_pos hlive]
    dsimp only [OneWay.source_other]
    refine wp_imp (h₁.forM (Z := fun child id' due => id' = id ∧ due = .removal child m)
      fun child hchild o₂ w₂ h₂ => ?_) fun _ w₃ h₃ => ?_
    · obtain ⟨hin, hrole⟩ := Rule.mem_childrenOn.mp hchild
      obtain ⟨c', hc', hcore⟩ := hkept o₂ w₂ h₂
      obtain ⟨G₂, D₂, hcarrying, hold, hnone⟩ := h₂.carrying
      have hel := Correspondence.element_eq_of_core hcore
      have hD : c'.id ∉ D₂.map Frame.id := by simp [hnone trivial]
      have hspec :=
        hcarrying.unlinkPartners (m := m) hc' hD
          ((Correspondence.rule_eq_of_core hcore).symm ▸ hr) hin
        (by rwa [hel, he, hrole])
      have hlive : (w₂.graphs.on p.target).contains (c.element p.target) = true :=
        hel _ ▸ hcarrying.alive hc'
      rw [State.role, hel, Correspondence.id_eq_of_core hcore, hi] at hspec
      rw [wp_bind, wp_graph, wp_bind, wp_liftGraph, Graph.references_eq, if_pos hlive]
      dsimp only
      rw [wp_bind, wp_pairs]
      refine wp_mono hspec ?_ fun _ _ hf => hf.elim
      rintro _ w₃ ⟨h₃, hg⟩
      exact h₂.step hcarrying hold h₃ (fun _ hi => hi) hg hnone
    · refine h₃.ofItems (hkept _ _ h₃) hi hr ?_
      intro due hasks hcalls
      obtain ⟨child, rfl, hrole⟩ := Effect.calls_referenceRemoved hcalls
      exact ⟨child, Rule.mem_childrenOn.mpr ⟨hasks.1, hrole⟩, rfl⟩
  · obtain ⟨⟨G₁, D₁, hcarrying, hold, hnone⟩, hg, hkept⟩ := hend.settle ho
    refine ⟨⟨G₁, D₁, hcarrying.note fun x hx => ((hdeleted x).mp hx).imp_right ?_, hold, hnone⟩,
      hg.trans (.of_same rfl rfl), hkept⟩
    rintro ⟨rfl, hgone⟩
    exact ⟨rfl, h.steady.source ▸ hgone⟩

/-- Carrying an edit over pays what it calls for. -/
theorem carry (h : p.Carrying o G D w) (change : Change) (ho : ∀ id x due, o id x due →
      o' id x due ∨ (x = change.element ∧ change.effect.Calls p.source due)) :
    wp (carry p.rules p.direction p.source change) (fun _ w' => ∃ G' D', p.Carrying o' G' D' w')
      (fun _ _ => True) w := by
  obtain ⟨G', start⟩ := h.restart
  obtain ⟨e, effect⟩ := change
  apply wp_carry
  · rintro name before after ⟨rfl⟩
    exact wp_imp (start.carryAttribute ho) fun _ _ h' => h'.carries
  · rintro role index m ⟨rfl⟩
    exact wp_imp (start.carryAddition ho) fun _ _ h' => h'.carries
  · rintro role index m ⟨rfl⟩
    exact wp_imp (start.carryRemoval ho) fun _ _ h' => h'.carries

end Carrying

end Pass

end GraphSync
