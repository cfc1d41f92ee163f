import GraphSync.Proofs.Walk.Release
import GraphSync.Proofs.Walk.Trace

namespace GraphSync

open Walk

/-- Does an edit of this effect concern the other element of a pair under the rule? -/
def Rule.Asks (r : Rule) (s : Side) : Effect → Prop
  | .attributeSet name _ _ => r.bindingsOn s name ≠ []
  | .referenceAdded role _ _ => r.childrenOn s role ≠ []
  | .referenceRemoved _ _ _ => False

/-- To carry an edit of a live element over, a counterpart `x` of it is asked for that is gone. A
new member is live. -/
structure Store.Misses (a : Store) (rules : RuleSet) (s : Side) (c : Change)
    (x : ElementId) : Prop where
  edited : (a.graphs.on s).contains c.element = true
  added : ∀ role index target, c.effect = .referenceAdded role index target →
    (a.graphs.on s).contains target = true
  gone : (a.graphs.on s.other).contains x = false
  paired : ∃ p ∈ a.pairs.entries, p.element s = c.element ∧ p.element s.other = x ∧
    ∃ r, rules.rule? p.rule = some r ∧ r.Asks s c.effect

namespace Walk

variable {w : State} {s : Side} {E : Error → State → Prop} {rules : RuleSet}
  {owner target : ElementId} {role : RoleName}

/-- Carries a new member over, where `apply` stands for the application of a rule. -/
def carryAdditionBy (rules : RuleSet) (d : Direction) (apply : Apply) (s : Side) (owner : ElementId)
    (role : RoleName) (target : ElementId) : Walk Unit := do
  let g ← graph s
  if !g.contains owner || !g.contains target then return
  let members ← liftGraph (g.references owner role)
  let some position := members.idxOf? target | return
  let earlier := (members.take position).reverse
  let later := members.drop (position + 1)
  let ids := ((← pairs).ofElement s owner).map (·.id)
  ids.forM fun id => do
    let some c := (← pairs).get? id | return
    let rule ← liftRule (rules.rule c.rule)
    (rule.childrenOn s role).forM fun child => do
      let _ ← linkMember rules d apply child s (c.element s.other) earlier target later

theorem carryAddition_eq (d : Direction) :
    carryAddition rules d s owner role target =
      carryAdditionBy rules d (start rules d) s owner role target :=
  rfl

/-- A new member is carried over for each pair of its owner, unless it has left the role again. -/
theorem wp_carryAdditionBy {Q : Unit → State → Prop} {d : Direction} {apply : Apply}
    (hs : (w.graphs.on s).Sound) (moot : target ∉ (w.graphs.on s).members owner role → Q () w)
    (carried : ∀ earlier later, (w.graphs.on s).members owner role = earlier.reverse ++
      target :: later → wp (((w.pairs.ofElement s owner).map (·.id)).forM fun id => do
        let some c := (← pairs).get? id | return
        let rule ← liftRule (rules.rule c.rule)
        (rule.childrenOn s role).forM fun child => do
          let _ ← linkMember rules d apply child s (c.element s.other) earlier target later)
            Q E w) :
    wp (carryAdditionBy rules d apply s owner role target) Q E w := by
  rw [carryAdditionBy, wp_bind, wp_graph, wp_ite]
  split
  · rename_i hdead
    refine moot fun hm => ?_
    rw [Graph.contains_of_mem_members hm, hs.members_live _ _ _ hm] at hdead
    simp at hdead
  rename_i hlive
  simp only [Bool.not_eq_true', Bool.or_eq_true, not_or, Bool.not_eq_false] at hlive
  rw [wp_bind, wp_liftGraph, Graph.references_eq, if_pos hlive.1]
  dsimp only
  split
  · rename_i position hpos
    obtain ⟨_, htarget, _⟩ := List.idxOf?_eq_some_iff.mp hpos
    rw [wp_bind, wp_pairs]
    refine carried _ _ ?_
    rw [List.reverse_reverse, ← htarget, List.getElem_cons_drop, List.take_append_drop]
  · rename_i hpos
    refine moot fun hm => ?_
    obtain ⟨position, hposition⟩ := Option.isSome_iff_exists.mp (List.isSome_idxOf?.mpr hm)
    exact hpos position hposition

theorem wp_carryAddition {Q : Unit → State → Prop} {d : Direction} (hs : (w.graphs.on s).Sound)
    (moot : target ∉ (w.graphs.on s).members owner role → Q () w)
    (carried : ∀ earlier later, (w.graphs.on s).members owner role = earlier.reverse ++
      target :: later → wp (((w.pairs.ofElement s owner).map (·.id)).forM fun id => do
        let some c := (← pairs).get? id | return
        let rule ← liftRule (rules.rule c.rule)
        (rule.childrenOn s role).forM fun child => do
          let _ ← linkMember rules d (start rules d) child s (c.element s.other)
            earlier target later) Q E w) :
    wp (carryAddition rules d s owner role target) Q E w := by
  rw [carryAddition_eq]
  exact wp_carryAdditionBy hs moot carried

/-- A removal is carried over for each pair of the owner, unless the member is back. What is gone is
noted. -/
theorem wp_carryRemoval {Q : Unit → State → Prop}
    (back : target ∈ (w.graphs.on s).members owner role → Q () w)
    (gone : target ∉ (w.graphs.on s).members owner role →
      wp (((w.pairs.ofElement s owner).map (·.id)).forM fun id => do
        let some c := (← pairs).get? id | return
        let rule ← liftRule (rules.rule c.rule)
        if (← graph s.other).contains (c.element s.other) then
          (rule.childrenOn s role).forM fun child => do
            let present ← liftGraph
              ((← graph s.other).references (c.element s.other) (child.roles.on s.other))
            let partners := ((← pairs).partners s target).filter (· ∈ present)
            partners.forM fun p => unlink s.other (c.element s.other) (child.roles.on s.other) p)
        (fun _ w' => ∀ deleted, (∀ p, p ∈ deleted ↔
            p ∈ w'.deleted ∨ (p = (s, target) ∧ (w.graphs.on s).contains target = false)) →
              Q () { w' with deleted })
        E w) :
    wp (carryRemoval rules s owner role target) Q E w := by
  have hback :
      ((w.graphs.on s).element? owner |>.map (·.targets role)).any (target ∈ ·) = true ↔
      target ∈ (w.graphs.on s).members owner role := by
    cases he : (w.graphs.on s).element? owner <;> simp [Graph.members, he]
  rw [carryRemoval, wp_bind, wp_graph, wp_ite]
  split
  · rename_i hany
    exact back (hback.mp hany)
  rename_i hany
  rw [wp_bind, wp_pairs, wp_bind]
  refine wp_imp (gone fun hm => hany (hback.mpr hm)) fun _ w' hend => ?_
  rw [wp_ite]
  split
  · rename_i hgone
    replace hgone : (w.graphs.on s).contains target = false := by simpa using hgone
    rw [wp_modify]
    split
    · rename_i hin
      exact hend _ fun p => ⟨.inl, fun hp => hp.elim id fun he => he.1 ▸ hin⟩
    · exact hend _ fun p => by simp [hgone]
  · rename_i hlive
    replace hlive : (w.graphs.on s).contains target = true := by simpa using hlive
    exact hend w'.deleted fun p => by simp [hlive]

end Walk

namespace Scheme

variable {k : Scheme} {d : Direction} {V : CorrespondenceId → Prop} {w w' w₁ : State} {s : Side}
  {e : ElementId} {c : Correspondence} {rule : Rule}

/-- A handle that was listed for an element stands for a pair that the element had from the start,
as long as it stands for one at all. -/
theorem Went.of_get? (h : k.Consistent w.graphs w.pairs) (hw : k.Went d V w w')
    {id : CorrespondenceId} (hid : id ∈ (w.pairs.ofElement s e).map (·.id))
    (hg : w'.pairs.get? id = some c) :
    c ∈ w'.pairs.entries ∧ ∃ c₀ ∈ w.pairs.entries, c₀.id = id ∧ c₀.element s = e ∧
      c.core = c₀.core := by
  have hm := List.mem_of_find?_eq_some hg
  have hi : c.id = id := by simpa using List.find?_some hg
  obtain ⟨c₀, hm₀, he₀, hi₀⟩ := Correspondences.mem_handles.mp hid
  obtain ⟨c', hm', hcore⟩ :=
    hw.acts.entry_of_old h hm (hi ▸ hi₀ ▸ h.listed.bounded c₀ hm₀)
  obtain rfl :=
    h.listed.eq_of_id hm' hm₀
      ((Correspondence.id_eq_of_core hcore).symm.trans (hi.trans hi₀.symm))
  exact ⟨hm, c', hm', hi₀, he₀, hcore⟩

/-- The handle of a pair stands for it as long as both elements live. -/
theorem Went.names_of_entry (h : k.Consistent w.graphs w.pairs) (hw : k.Went d V w w')
    (hc : c ∈ w.pairs.entries) (hr : k.rules.rule? c.rule = some rule)
    (hl : ∀ s, (w'.graphs.on s).contains (c.element s) = true) :
    w'.store.Names c.id rule c.elements := by
  refine hw.acts.names h (.of_entry h hc (fun s => ?_) hr)
  obtain ⟨kind, hk⟩ := Graph.contains_iff_kind.mp (hl s)
  exact Graph.contains_iff_kind.mpr
    ⟨kind, (hw.acts.follows h s).kind_of_old _ kind (h.element_lt s c hc) hk⟩

variable {P : Error → Prop}

/-- What is done for a pair of an element, found by its handle, with its rule. The pair is one that
the element had from the start, as far as it is still recorded. -/
theorem Went.wp_eachPair {α : Type} {Q : α → State → Prop} {E : Error → State → Prop}
    (h : k.Consistent w.graphs w.pairs) (hw : k.Went d V w w') {id : CorrespondenceId}
    (hid : id ∈ (w.pairs.ofElement s e).map (·.id)) {absent : α}
    {f : Correspondence → Rule → Walk α}
    (gone : (∀ c ∈ w'.pairs.entries, c.id ≠ id) → Q absent w')
    (found : ∀ c ∈ w.pairs.entries, c.id = id → c.element s = e → ∀ r,
      k.rules.rule? c.rule = some r →
      ∀ c' ∈ w'.pairs.entries, c'.core = c.core → wp (f c' r) Q E w') :
    wp (do
      let some c := (← pairs).get? id | return absent
      let rule ← liftRule (k.rules.rule c.rule)
      f c rule) Q E w' := by
  rw [wp_bind, wp_pairs]
  split
  · rename_i c hget
    obtain ⟨hc, c₀, hc₀, hi, he, hcore⟩ := hw.of_get? h hid hget
    obtain ⟨r, hr, _⟩ := hw.consistent.typed c hc
    rw [wp_bind, wp_liftRule, RuleSet.rule_eq, hr]
    exact found c₀ hc₀ hi he r (Correspondence.rule_eq_of_core hcore ▸ hr) c hc hcore
  · rename_i hget
    refine gone fun c hc hi => hget c ?_
    rw [← hi]
    exact hw.consistent.listed.get?_eq hc

/-- Where no pair was recorded or dropped since, every handle still stands for its pair. -/
theorem wp_eachPair {α : Type} {Q : α → State → Prop} {E : Error → State → Prop}
    (h : k.Consistent w.graphs w.pairs) (hpairs : w'.pairs = w.pairs) {id : CorrespondenceId}
    (hid : id ∈ (w.pairs.ofElement s e).map (·.id)) {absent : α}
    {f : Correspondence → Rule → Walk α}
    (found : ∀ c ∈ w.pairs.entries, c.id = id → c.element s = e → ∀ r,
      k.rules.rule? c.rule = some r → wp (f c r) Q E w') :
    wp (do
      let some c := (← pairs).get? id | return absent
      let rule ← liftRule (k.rules.rule c.rule)
      f c rule) Q E w' := by
  obtain ⟨c, hc, he, hi⟩ := Correspondences.mem_handles.mp hid
  obtain ⟨r, hr, _⟩ := h.typed c hc
  rw [wp_bind, wp_pairs, hpairs, ← hi, h.listed.get?_eq hc]
  dsimp only
  rw [wp_bind, wp_liftRule, RuleSet.rule_eq, hr]
  exact found c hc hi he r hr

/-- What is done for each pair of an element, as far as it is still recorded, with its rule. -/
theorem traces_eachPair {α : Type} (h : k.Consistent w.graphs w.pairs)
    (hv : ∀ c ∈ w.pairs.entries, c.element s = e → V c.id) {id : CorrespondenceId}
    (hid : id ∈ (w.pairs.ofElement s e).map (·.id)) {absent : α}
    {f : Correspondence → Rule → Walk α} (hw : k.Went d V w w')
    (hf : ∀ c r, c ∈ w'.pairs.entries → c.id = id → c.element s = e →
      (∃ c₀ ∈ w.pairs.entries, c.core = c₀.core) →
      V c.id → k.rules.rule? c.rule = some r → k.Traces d V P (f c r) w') :
    k.Traces d V P (do
      let some c := (← pairs).get? id | return absent
      let rule ← liftRule (k.rules.rule c.rule)
      f c rule) w' := by
  refine hw.wp_eachPair h hid (fun _ => .refl hw.consistent)
    fun c₀ hc₀ hi he r hr c hc hcore => ?_
  have hsame := Correspondence.id_eq_of_core hcore
  refine hf c r hc (hsame.trans hi) ((Correspondence.element_eq_of_core hcore s).trans he)
    ⟨c₀, hc₀, hcore⟩ ?_ ((Correspondence.rule_eq_of_core hcore).symm ▸ hr)
  rw [hsame]
  exact hv c₀ hc₀ he

/-- An element that is gone now was gone before. -/
theorem Went.dead (h : k.Consistent w.graphs w.pairs) (hw : k.Went d V w w') {x : ElementId}
    (hd : (w'.graphs.on s).contains x = false) : (w.graphs.on s).contains x = false := by
  cases hl : (w.graphs.on s).contains x with
  | false => rfl
  | true => exact Bool.noConfusion (hd.symm.trans (hw.acts.contains h hl))

theorem traces_carryAttribute (h : k.Consistent w.graphs w.pairs)
    (hv : ∀ c ∈ w.pairs.entries, c.element s = e → V c.id) (name : AttributeName)
    (before after : Value)
    (hp : ∀ x, w.store.Misses k.rules s ⟨e, .attributeSet name before after⟩ x →
      P (.graph (.unknownElement x))) :
    k.Traces d V P (carryAttribute k.rules d s e name) w := by
  rw [Traces, carryAttribute, wp_bind, wp_graph, wp_ite]
  split
  · exact .refl h
  rename_i hlive
  replace hlive : (w.graphs.on s).contains e = true := by simpa using hlive
  rw [wp_bind, wp_pairs]
  refine Traces.bind (.mapM h fun id hid w' hw => ?_) fun _ w' h' => .pure h'.consistent _
  refine traces_eachPair h hv hid hw fun c r hc hi he hcore hvc hr => ?_
  obtain ⟨hr', hname⟩ := RuleSet.mem_of_rule? hr
  refine .bind (.mapM hw.consistent fun bi hbi w'' hw' => ?_) fun _ w'' h'' =>
    .pure h''.consistent _
  rw [← hi]
  refine traces_applyBinding hw'.consistent (fun hl => hw'.names_of_entry hw.consistent hc hr hl) ?_
    (hname ▸ hr) hvc (Rule.mem_bindingsOn.mp hbi).1
  intro t hd
  have hd₀ := (hw.trans hw').dead h hd
  rcases s.eq_or_eq_other t with rfl | rfl
  · -- the edited element itself lives
    have he' : c.elements.on t = e := he
    rw [he'] at hd₀
    exact Bool.noConfusion (hd₀.symm.trans hlive)
  · obtain ⟨c₀, hc₀, hcore⟩ := hcore
    have hel := Correspondence.element_eq_of_core hcore
    refine hp _ ⟨hlive, (fun _ _ _ he => by cases he), hd₀, c₀, hc₀, (hel s).symm.trans he,
      (hel s.other).symm, r, ?_, ?_⟩
    · exact Correspondence.rule_eq_of_core hcore ▸ hr
    · exact List.ne_nil_of_mem hbi

theorem traces_carryAdditionBy {apply : Apply} (happly : k.Applies d P w apply)
    (hallow : k.Allows d P w.store) (h : k.Consistent w.graphs w.pairs) (hs : s ∈ d.authorities)
    (hv : ∀ c ∈ w.pairs.entries, c.element s = e → V c.id) (role : RoleName) (index : Nat)
    (target : ElementId)
    (hp : ∀ x, w.store.Misses k.rules s ⟨e, .referenceAdded role index target⟩ x →
      P (.graph (.unknownElement x))) :
    k.Traces d V P (carryAdditionBy k.rules d apply s e role target) w := by
  refine wp_carryAdditionBy (h.sound s) (fun _ => .refl h) fun earlier later hsplit => ?_
  have hm : target ∈ (w.graphs.on s).members e role := by simp [hsplit]
  refine Traces.forM h fun id hid w' hw => ?_
  refine traces_eachPair h hv hid hw fun c r hc hi he hcore hvc hr => ?_
  obtain ⟨hr', hname⟩ := RuleSet.mem_of_rule? hr
  refine .forM hw.consistent fun child hchild w'' hw' => ?_
  obtain ⟨hmem, hrole⟩ := Rule.mem_childrenOn.mp hchild
  have hm' : target ∈ (w''.graphs.on s).members (c.elements.on s) (child.roles.on s) := by
    rw [hrole, show c.elements.on s = e from he]
    exact (hw.trans hw').acts.members h hs hm
  refine .bind ?_ fun _ _ h'' => .pure h''.consistent _
  refine traces_linkMember happly hallow (hname ▸ hr) hvc ((hw.trans hw').mono fun _ _ => trivial)
    (fun hl => hw'.names_of_entry hw.consistent hc hr hl) ?_ hs hmem hm' _ _
  intro hd
  obtain ⟨c₀, hc₀, hcore⟩ := hcore
  have hel := Correspondence.element_eq_of_core hcore
  refine hp _
    ⟨Graph.contains_of_mem_members hm, fun _ _ _ he => ?_, (hw.trans hw').dead h hd, c₀, hc₀,
    (hel s).symm.trans he, (hel s.other).symm, r, ?_, ?_⟩
  · cases he
    exact (h.sound s).members_live _ _ _ hm
  · exact Correspondence.rule_eq_of_core hcore ▸ hr
  · exact List.ne_nil_of_mem hchild

end Scheme

/-- A removal was carried over: members left their roles, no pair the record, and a target that is
gone was noted. -/
def Walk.Removes (d : Direction) (s : Side) (target : ElementId) (w w' : State) : Prop :=
  ∃ w₁ deleted, Frees d w w₁ ∧ w₁.pairs = w.pairs ∧ w' = { w₁ with deleted } ∧
    ∀ p, p ∈ deleted ↔ p ∈ w.deleted ∨
      (p = (s, target) ∧ (w.graphs.on s).contains target = false)

/-- No counterpart of the element stands in the role of a pair. -/
def Walk.State.Vacates (w : State) (s : Side) (target : ElementId) (c : Correspondence)
    (child : Child) : Prop :=
  ∀ y ∈ w.pairs.partners s target, y ∉ w.role c child s.other

theorem Walk.State.Vacates.frees {w w' : State} {d : Direction} {s : Side} {target : ElementId}
    {c : Correspondence} {child : Child} (h : w.Vacates s target c child) (hf : Frees d w w')
    (hp : w'.pairs = w.pairs) : w'.Vacates s target c child := by
  intro y hy hin
  rw [hp] at hy
  exact h y hy ((hf.members _ _ _).subset hin)

/-- None stands where the pairs of an owner have what the role leads to, as far as they have live
elements there. -/
def Walk.State.Vacated (w : State) (rules : RuleSet) (s : Side) (owner : ElementId)
    (role : RoleName) (target : ElementId) : Prop :=
  ∀ c ∈ w.pairs.entries, c.element s = owner →
    (w.graphs.on s.other).contains (c.element s.other) = true →
    ∀ r, rules.rule? c.rule = some r → ∀ child ∈ r.childrenOn s role,
      w.Vacates s target c child

namespace Walk

variable {k : Scheme} {d : Direction} {w w' : State} {s : Side}

/-- All counterparts of an element leave the role of a pair. -/
theorem vacates_unlink {c : Correspondence} (h : ∀ s, (w.graphs.on s).Sound)
    (hs : s ∈ d.authorities) (hc : c ∈ w.pairs.entries)
    (hlive : (w.graphs.on s.other).contains (c.element s.other) = true) (child : Child)
    (target : ElementId) :
    wp (((w.pairs.partners s target).filter (· ∈ w.role c child s.other)).forM fun y =>
        unlink s.other (c.element s.other) (child.roles.on s.other) y)
      (fun _ w' => Frees d w w' ∧ w'.pairs = w.pairs ∧ w'.Vacates s target c child)
      (fun _ _ => False) w := by
  have hs' : s.other.other ∈ d.authorities := s.other_other.symm ▸ hs
  refine wp_imp (wp_forM_each (I := fun w' => Frees d w w' ∧ w'.pairs = w.pairs)
    (G := fun y w' => y ∉ w'.role c child s.other)
    (fun y hy w₁ hw₁ => ?_) ⟨.refl d h, rfl⟩) fun _ w' hend => ?_
  · obtain ⟨hf, hp⟩ := hw₁
    obtain ⟨a, ha, _, hy⟩ := Correspondences.mem_partners.mp (List.mem_filter.mp hy).1
    have howner : ¬ w₁.pairs.Unpaired s.other (c.element s.other) :=
      fun hno => hno c (hp ▸ hc) rfl
    have htarget : ¬ w₁.pairs.Unpaired s.other y := fun hno => hno a (hp ▸ ha) hy
    refine wp_unlink (fun hdead => ?_) fun _ unlinked _ => ?_
    · exact Bool.noConfusion (hdead.symm.trans ((hf.contains _ _).trans hlive))
    · have hf' := Frees.drop hf.sound hs' howner htarget (child.roles.on s.other) unlinked
      refine ⟨⟨hf.trans hf', hp⟩, fun hin => ?_, fun z hz hin =>
        hz ((hf'.members _ _ _).subset hin)⟩
      rw [State.role, Sided.on_put_self,
        ((hf.sound s.other).relists_dropReference _ _ _).members_self] at hin
      simp at hin
  · obtain ⟨⟨hf, hp⟩, hgone⟩ := hend
    refine ⟨hf, hp, fun y hy hin => hgone y (List.mem_filter.mpr ⟨hp ▸ hy, ?_⟩) hin⟩
    exact decide_eq_true ((hf.members _ _ _).subset hin)

theorem vacates_children {c : Correspondence} (h : ∀ s, (w.graphs.on s).Sound)
    (hs : s ∈ d.authorities) (hc : c ∈ w.pairs.entries)
    (hlive : (w.graphs.on s.other).contains (c.element s.other) = true) (target : ElementId)
    (children : List Child) : wp (children.forM fun child => do
        let present ← liftGraph
          ((← graph s.other).references (c.element s.other) (child.roles.on s.other))
        let partners := ((← pairs).partners s target).filter (· ∈ present)
        partners.forM fun p => unlink s.other (c.element s.other) (child.roles.on s.other) p)
      (fun _ w' => Frees d w w' ∧ w'.pairs = w.pairs ∧ ∀ child ∈ children,
        w'.Vacates s target c child)
      (fun _ _ => False) w := by
  refine wp_imp (wp_forM_each (I := fun w' => Frees d w w' ∧ w'.pairs = w.pairs)
    (G := fun child w' => w'.Vacates s target c child)
    (fun child _ w₁ hw₁ => ?_) ⟨.refl d h, rfl⟩)
    fun _ w' hend => ⟨hend.1.1, hend.1.2, hend.2⟩
  obtain ⟨hf, hp⟩ := hw₁
  have hlive₁ : (w₁.graphs.on s.other).contains (c.element s.other) = true :=
    (hf.contains _ _).trans hlive
  rw [wp_bind, wp_graph, wp_bind, wp_liftGraph, Graph.references_eq, if_pos hlive₁]
  dsimp only
  rw [wp_bind, wp_pairs]
  refine wp_imp (vacates_unlink (d := d) hf.sound hs (hp ▸ hc) hlive₁ child target)
    fun _ w₂ hw₂ => ?_
  obtain ⟨hf₂, hp₂, hgone⟩ := hw₂
  exact ⟨⟨hf.trans hf₂, hp₂.trans hp⟩, hgone, fun child' hv => hv.frees hf₂ hp₂⟩

/-- Nothing is missed when a removal is carried over, and no counterpart is left unless the member
was put back. -/
theorem frees_carryRemoval (h : k.Consistent w.graphs w.pairs) (hs : s ∈ d.authorities)
    (owner : ElementId) (role : RoleName) (target : ElementId) :
    wp (carryRemoval k.rules s owner role target) (fun _ w' => Removes d s target w w' ∧
      (target ∉ (w.graphs.on s).members owner role → w'.Vacated k.rules s owner role target))
      (fun _ _ => False) w := by
  apply wp_carryRemoval
  · -- a member that is back in the role is live
    intro hm
    refine ⟨⟨w, w.deleted, .refl d h.sound, rfl, rfl, fun p => ⟨.inl, ?_⟩⟩, fun hout =>
      absurd hm hout⟩
    rintro (hp | ⟨_, hd⟩)
    · exact hp
    · exact Bool.noConfusion (hd.symm.trans ((h.sound s).members_live _ _ _ hm))
  intro _
  let G (id : CorrespondenceId) (w' : State) : Prop := ∀ c ∈ w.pairs.entries, c.id = id →
    (w.graphs.on s.other).contains (c.element s.other) = true → ∀ r,
      k.rules.rule? c.rule = some r →
      ∀ child ∈ r.childrenOn s role, w'.Vacates s target c child
  refine wp_imp (wp_forM_each (I := fun w' => Frees d w w' ∧ w'.pairs = w.pairs) (G := G)
    (fun id hid w₁ hw₁ => ?_) ⟨.refl d h.sound, rfl⟩) fun _ w₁ hend deleted hmem => ?_
  · obtain ⟨hf, hpairs⟩ := hw₁
    refine Scheme.wp_eachPair h hpairs hid fun c hc hi _ r hr => ?_
    have same {a : Correspondence} (ha : a ∈ w.pairs.entries) (hia : a.id = id) : a = c :=
      h.listed.eq_of_id ha hc (hia.trans hi.symm)
    dsimp only
    rw [wp_bind, wp_graph, wp_ite]
    split
    · rename_i hlive
      refine wp_imp
        (vacates_children hf.sound hs (hpairs ▸ hc) hlive target (r.childrenOn s role))
        fun _ w₂ hw₂ => ?_
      obtain ⟨hf₂, hp₂, hgone⟩ := hw₂
      refine ⟨⟨hf.trans hf₂, hp₂.trans hpairs⟩, fun a ha hia _ r' hr' child hchild => ?_,
        fun _ hg a ha hia hl r' hr' child hchild =>
          (hg a ha hia hl r' hr' child hchild).frees hf₂ hp₂⟩
      obtain rfl := same ha hia
      obtain rfl : r = r' := Option.some.inj (hr.symm.trans hr')
      exact hgone child hchild
    · rename_i hdead
      refine ⟨⟨hf, hpairs⟩, fun a ha hia hl => ?_, fun _ hg => hg⟩
      obtain rfl := same ha hia
      exact absurd ((hf.contains _ _).trans hl) hdead
  · obtain ⟨⟨hf, hpairs⟩, hgone⟩ := hend
    refine ⟨⟨w₁, deleted, hf, hpairs, rfl, hf.deleted ▸ hmem⟩,
      fun _ c hc he hl r hr child hchild => ?_⟩
    rw [hf.contains] at hl
    replace hc : c ∈ w.pairs.entries := hpairs ▸ hc
    exact hgone c.id (Correspondences.mem_handles.mpr ⟨c, hc, he, rfl⟩)
      c hc rfl hl r hr child hchild

/-- A removal has no effect where no counterpart stands in the role any more, but that a target that
is gone is noted. -/
theorem repeat_carryRemoval (h : k.Consistent w.graphs w.pairs) {owner : ElementId}
    {role : RoleName} {target : ElementId}
    (hgone : target ∉ (w.graphs.on s).members owner role →
      w.Vacated k.rules s owner role target) :
    wp (carryRemoval k.rules s owner role target) (fun _ w' => ∃ deleted, w' = { w with deleted })
      (fun _ _ => False) w := by
  apply wp_carryRemoval
  · exact fun _ => ⟨w.deleted, rfl⟩
  intro hm
  refine wp_imp (wp_forM_keep (I := (· = w)) (fun id hid w₁ hw₁ => ?_) rfl)
    fun _ w₁ hw₁ deleted _ => ⟨deleted, hw₁ ▸ rfl⟩
  subst hw₁
  refine Scheme.wp_eachPair h rfl hid fun c hc _ he r hr => ?_
  dsimp only
  rw [wp_bind, wp_graph, wp_ite]
  split
  · rename_i hlive
    refine wp_forM_keep (fun child hchild w₂ hw₂ => ?_) rfl
    subst hw₂
    rw [wp_bind, wp_graph, wp_bind, wp_liftGraph, Graph.references_eq, if_pos hlive]
    dsimp only
    have hnone : (w₂.pairs.partners s target).filter
        (· ∈ (w₂.graphs.on s.other).members (c.element s.other) (child.roles.on s.other)) = [] :=
      List.filter_eq_nil_iff.mpr fun y hy hin =>
        hgone hm c hc he hlive r hr child hchild y hy (of_decide_eq_true hin)
    rw [wp_bind, wp_pairs, hnone]
    rfl
  · rfl

/-- Carries one edit over, where `apply` stands for the application of a rule. -/
def carryBy (rules : RuleSet) (d : Direction) (apply : Apply) (s : Side) (c : Change) :
    Walk ChangeOutcome := do
  modify fun w => { w with visited := [] }
  let before := (← get).report.effects
  let conflicted ← match c.effect with
    | .attributeSet name _ _ => carryAttribute rules d s c.element name
    | .referenceAdded role _ target => do
      carryAdditionBy rules d apply s c.element role target
      pure false
    | .referenceRemoved role _ target => do
      carryRemoval rules s c.element role target
      pure false
  if before < (← get).report.effects then return .applied
  return if conflicted then .conflicted else .skipped

theorem carry_eq (rules : RuleSet) (c : Change) :
    carry rules d s c = carryBy rules d (start rules d) s c := rfl

/-- What is told of an edit that was carried over. -/
def outcome (before after : Report) (conflicted : Bool) : ChangeOutcome :=
  if before.effects < after.effects then .applied else if conflicted then .conflicted else .skipped

/-- An edit is carried over by what belongs to its effect, with no pair visited yet. -/
theorem wp_carryBy_outcome {Q : ChangeOutcome → State → Prop} {E : Error → State → Prop}
    {rules : RuleSet} {apply : Apply} {c : Change}
    (setting : ∀ name before after, c.effect = .attributeSet name before after →
      wp (carryAttribute rules d s c.element name)
        (fun conflicted w' => Q (outcome w.report w'.report conflicted) w') E
        { w with visited := [] })
    (addition : ∀ role index target, c.effect = .referenceAdded role index target →
      wp (carryAdditionBy rules d apply s c.element role target)
        (fun _ w' => Q (outcome w.report w'.report false) w') E { w with visited := [] })
    (removal : ∀ role index target, c.effect = .referenceRemoved role index target →
      wp (carryRemoval rules s c.element role target)
        (fun _ w' => Q (outcome w.report w'.report false) w') E { w with visited := [] }) :
    wp (carryBy rules d apply s c) Q E w := by
  have told {w' : State} {conflicted : Bool} (hq : Q (outcome w.report w'.report conflicted) w') :
      wp (do
        if w.report.effects < (← get).report.effects then return .applied
        return if conflicted then .conflicted else .skipped) Q E w' := by
    rw [outcome] at hq
    rw [wp_bind, wp_get, wp_ite]
    split
    · rename_i hwrote
      rw [if_pos hwrote] at hq
      exact hq
    · rename_i hquiet
      rw [if_neg hquiet] at hq
      exact hq
  rw [carryBy, wp_bind, wp_modify, wp_bind, wp_get]
  dsimp only
  split
  · rename_i name before after he
    rw [wp_bind]
    exact wp_imp (setting name before after he) fun _ _ hq => told hq
  · rename_i role index target he
    rw [wp_bind]
    exact wp_imp (addition role index target he) fun _ _ hq => told hq
  · rename_i role index target he
    rw [wp_bind]
    exact wp_imp (removal role index target he) fun _ _ hq => told hq

theorem wp_carryBy {I : State → Prop} {E : Error → State → Prop} {rules : RuleSet}
    {apply : Apply} {c : Change}
    (setting : ∀ name before after, c.effect = .attributeSet name before after →
      wp (carryAttribute rules d s c.element name) (fun _ => I) E { w with visited := [] })
    (addition : ∀ role index target, c.effect = .referenceAdded role index target →
      wp (carryAdditionBy rules d apply s c.element role target) (fun _ => I) E
        { w with visited := [] })
    (removal : ∀ role index target, c.effect = .referenceRemoved role index target →
      wp (carryRemoval rules s c.element role target) (fun _ => I) E { w with visited := [] }) :
    wp (carryBy rules d apply s c) (fun _ => I) E w :=
  wp_carryBy_outcome setting addition removal

theorem wp_carry {I : State → Prop} {E : Error → State → Prop} {rules : RuleSet} {c : Change}
    (setting : ∀ name before after, c.effect = .attributeSet name before after →
      wp (carryAttribute rules d s c.element name) (fun _ => I) E { w with visited := [] })
    (addition : ∀ role index target, c.effect = .referenceAdded role index target →
      wp (carryAddition rules d s c.element role target) (fun _ => I) E { w with visited := [] })
    (removal : ∀ role index target, c.effect = .referenceRemoved role index target →
      wp (carryRemoval rules s c.element role target) (fun _ => I) E { w with visited := [] }) :
    wp (carry rules d s c) (fun _ => I) E w := by
  rw [carry_eq]
  exact wp_carryBy setting addition removal

/-- An edit that has no effect, and meets no conflict, is skipped. -/
theorem wp_carry_skipped {I : State → Prop} {E : Error → State → Prop} {rules : RuleSet}
    {c : Change} (quiet : ∀ w', I w' → w'.report.effects = w.report.effects)
    (setting : ∀ name before after, c.effect = .attributeSet name before after →
      wp (carryAttribute rules d s c.element name)
        (fun conflicted w' => conflicted = false ∧ I w') E { w with visited := [] })
    (addition : ∀ role index target, c.effect = .referenceAdded role index target →
      wp (carryAddition rules d s c.element role target) (fun _ => I) E { w with visited := [] })
    (removal : ∀ role index target, c.effect = .referenceRemoved role index target →
      wp (carryRemoval rules s c.element role target) (fun _ => I) E { w with visited := [] }) :
    wp (carry rules d s c) (fun o w' => o = .skipped ∧ I w') E w := by
  have skipped {w' : State} (hi : I w') : outcome w.report w'.report false = .skipped ∧ I w' := by
    refine ⟨?_, hi⟩
    rw [outcome, quiet w' hi, if_neg (Nat.lt_irrefl _)]
    rfl
  rw [carry_eq]
  apply wp_carryBy_outcome
  · intro name before after he
    refine wp_imp (setting name before after he) fun conflicted _ hi => ?_
    rw [hi.1]
    exact skipped hi.2
  · exact fun role index target he =>
      wp_imp (addition role index target he) fun _ _ hi => skipped hi
  · exact fun role index target he =>
      wp_imp (removal role index target he) fun _ _ hi => skipped hi

/-- Carrying an edit over takes the writes it calls for, or removals that miss nothing. `P` holds of
an error. -/
theorem wp_carryBy_traced {I : State → Prop} {E : Error → State → Prop} {P : Error → Prop}
    {apply : Apply} {c : Change} (happly : k.Applies d P { w with visited := [] } apply)
    (hallow : k.Allows d P w.store)
    (hmiss : ∀ x, w.store.Misses k.rules s c x → P (.graph (.unknownElement x)))
    (h : k.Consistent w.graphs w.pairs) (hs : s ∈ d.authorities)
    (wrote : ∀ w', k.Went d (fun _ => True) { w with visited := [] } w' →
      (∀ role index target, c.effect ≠ .referenceRemoved role index target) → I w')
    (failed : ∀ e w', k.Went d (fun _ => True) { w with visited := [] } w' →
      (∀ role index target, c.effect ≠ .referenceRemoved role index target) → P e → E e w')
    (removed : ∀ role index target, c.effect = .referenceRemoved role index target →
      ∀ w', Removes d s target { w with visited := [] } w' → I w') :
    wp (carryBy k.rules d apply s c) (fun _ => I) E w := by
  let w₀ : State := { w with visited := [] }
  have h₀ : k.Consistent w₀.graphs w₀.pairs := h
  obtain ⟨element, effect⟩ := c
  apply wp_carryBy
  · rintro name before after ⟨rfl⟩
    exact wp_mono (Scheme.traces_carryAttribute h₀ (fun _ _ _ => trivial) name before after hmiss)
      (fun _ _ hw => wrote _ hw nofun) fun _ _ hw => failed _ _ hw.1 nofun hw.2.2
  · rintro role index target ⟨rfl⟩
    exact wp_mono
      (Scheme.traces_carryAdditionBy happly hallow h₀ hs (fun _ _ _ => trivial) role index target
        hmiss) (fun _ _ hw => wrote _ hw nofun) fun _ _ hw => failed _ _ hw.1 nofun hw.2.2
  · rintro role index target ⟨rfl⟩
    exact wp_mono (frees_carryRemoval h₀ hs element role target)
      (fun _ _ hw => removed _ _ _ rfl _ hw.1) fun _ _ hf => hf.elim

theorem wp_carry_traced {I : State → Prop} {E : Error → State → Prop} {c : Change}
    (h : k.Consistent w.graphs w.pairs) (hs : s ∈ d.authorities)
    (wrote : ∀ w', k.Went d (fun _ => True) { w with visited := [] } w' →
      (∀ role index target, c.effect ≠ .referenceRemoved role index target) → I w')
    (failed : ∀ e w', k.Went d (fun _ => True) { w with visited := [] } w' →
      (∀ role index target, c.effect ≠ .referenceRemoved role index target) →
      (∀ g, e = .graph g → ∃ x, w.store.Misses k.rules s c x ∧ g = .unknownElement x) → E e w')
    (removed : ∀ role index target, c.effect = .referenceRemoved role index target →
      ∀ w', Removes d s target { w with visited := [] } w' → I w') :
    wp (carry k.rules d s c) (fun _ => I) E w :=
  wp_carryBy_traced
    (P := Error.OfGraph fun g => ∃ x, w.store.Misses k.rules s c x ∧ g = .unknownElement x)
    (Scheme.applies_start (.of_rule Error.ofGraph_rule) Error.ofGraph_tooDeep)
    (.of_rule Error.ofGraph_rule) (fun x hx => Error.ofGraph_graph ⟨x, hx, rfl⟩)
    h hs wrote failed removed

end Walk

end GraphSync
