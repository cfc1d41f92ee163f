import GraphSync.Proofs.Walk.Steps

namespace GraphSync.OneWay

open Walk

variable {α β : Type} {k : OneWay}

/-- The walk leaves a coherent state behind, also when it fails. -/
def Keeps (k : OneWay) (x : Walk α) : Prop :=
  ∀ w, k.Coherent w.graphs w.pairs → wp x (fun _ w' => k.Coherent w'.graphs w'.pairs)
    (fun _ w' => k.Coherent w'.graphs w'.pairs) w

namespace Keeps

theorem pure (a : α) : k.Keeps (Pure.pure a) := fun _ h => h

theorem throw (e : Error) : k.Keeps (throw e : Walk α) := fun _ h => h

theorem bind {x : Walk β} {f : β → Walk α} (hx : k.Keeps x) (hf : ∀ b, k.Keeps (f b)) :
    k.Keeps (x >>= f) := by
  intro w h
  rw [wp_bind]
  exact wp_imp (hx w h) (fun b w' h' => hf b w' h')

theorem ite (c : Prop) [Decidable c] {x y : Walk α} (hx : k.Keeps x) (hy : k.Keeps y) :
    k.Keeps (if c then x else y) := by
  split
  · exact hx
  · exact hy

theorem get : k.Keeps (MonadState.get : Walk State) := fun _ h => h

theorem graph (s : Side) : k.Keeps (Walk.graph s) := fun _ h => h

theorem pairs : k.Keeps Walk.pairs := fun _ h => h

theorem note (f : Report → Report) : k.Keeps (Walk.note f) := fun _ h => h

theorem liftGraph (r : Except GraphError α) : k.Keeps (Walk.liftGraph r) := by
  cases r with
  | ok a => exact pure a
  | error e => exact throw _

theorem liftRule (r : Except RuleError α) : k.Keeps (Walk.liftRule r) := by
  cases r with
  | ok a => exact pure a
  | error e => exact throw _

theorem onGraph (s : Side) {f : Graph → Except GraphError (α × Graph)}
    (hf : ∀ g a g', g.Sound → f g = .ok (a, g') → g.Follows g') :
    k.Keeps (Walk.onGraph s f) := by
  intro w h
  rw [wp_onGraph]
  cases hr : f (w.graphs.on s) with
  | error e => exact h
  | ok p => exact h.put (hf _ p.1 p.2 (h.sound s) hr)

theorem exec {x : Walk α} (hx : k.Keeps x) {w : State} (h : k.Coherent w.graphs w.pairs) :
    k.Coherent (Walk.exec x w).2.graphs (Walk.exec x w).2.pairs :=
  exec_of_wp (I := fun w' => k.Coherent w'.graphs w'.pairs) (hx w h)

theorem modifyPairs {f : State → State}
    (hf : ∀ w, k.Coherent w.graphs w.pairs → k.Coherent (f w).graphs (f w).pairs) :
    k.Keeps (modify f : Walk Unit) := fun w h => hf w h

theorem forM {f : α → Walk Unit} {l : List α} (hf : ∀ a, k.Keeps (f a)) :
    k.Keeps (l.forM f) :=
  fun _ h => wp_forM_keep (fun a _ w h => hf a w h) h

theorem mapM {f : α → Walk β} {l : List α} (hf : ∀ a, k.Keeps (f a)) : k.Keeps (l.mapM f) :=
  fun _ h => wp_mapM_keep (fun a _ w h => hf a w h) h

end Keeps

theorem keeps_recordShadow (id : CorrespondenceId) (index : Nat) (values : Shadow) :
    k.Keeps (Walk.recordShadow id index values) :=
  .modifyPairs fun _ h => h.recordShadow id index values

theorem keeps_setValue (s : Side) (x : ElementId) (name : AttributeName) (v : Value) :
    k.Keeps (onGraph s (·.setValue x name v)) := by
  refine .onGraph s ?_
  intro g a g' hg hr
  exact hg.setValue (Graph.rewrites_of_setValue hr).2

theorem keeps_applyBinding (d : Direction) (rule : RuleName) (id : CorrespondenceId)
    (pair : Sided ElementId) (b : Binding) (index : Nat) :
    k.Keeps (applyBinding d rule id pair b index) := by
  refine .bind .get fun w => .bind (.liftGraph _) fun left => .bind (.liftGraph _) fun right => ?_
  dsimp only
  split
  · refine .ite _ (.bind (keeps_recordShadow _ _ _) fun _ => .pure _) (.pure _)
  · exact .bind (.note _) fun _ => .pure _
  · refine .bind (keeps_setValue _ _ _ _) fun _ => .bind (.note _) fun _ => ?_
    exact .bind (keeps_recordShadow _ _ _) fun _ => .pure _

theorem keeps_removeReference (s : Side) (owner : ElementId) (role : RoleName)
    (target : ElementId) : k.Keeps (onGraph s (·.removeReference owner role target)) := by
  refine .onGraph s ?_
  intro g a g' hg hr
  rw [Graph.removeReference_eq] at hr
  split at hr
  · cases hr
    exact hg.dropReference owner role target
  · cases hr

/-- The pair is recorded under the rule, or nothing recorded contradicts it. -/
def Recordable (k : OneWay) (graphs : Sided Graph) (t : Correspondences) (rule : Rule)
    (pair : Sided ElementId) : Prop :=
  k.rules.rule? rule.name = some rule ∧
    ((∃ c ∈ t.entries, c.rule = rule.name ∧ c.elements = pair) ∨
      (∀ c ∈ t.entries, c.rule = rule.name → c.element k.source ≠ pair.on k.source) ∧
        (∀ c ∈ t.entries, c.element k.target ≠ pair.on k.target) ∧
        (pair.on k.target).index < (graphs.on k.target).next ∧
        pair.on k.target ≠ (graphs.on k.target).root)

theorem Recordable.put {graphs : Sided Graph} {t : Correspondences} {rule : Rule}
    {pair : Sided ElementId} (h : k.Recordable graphs t rule pair) {g : Graph}
    (hf : (graphs.on k.target).Follows g) : k.Recordable (graphs.put k.target g) t rule pair := by
  refine ⟨h.1, h.2.imp_right fun ⟨hs, ht, hl, hm⟩ => ⟨hs, ht, ?_, ?_⟩⟩
  · rw [Sided.on_put_self]
    exact Nat.lt_of_lt_of_le hl hf.next_le
  · exact hm

theorem Coherent.made {graphs : Sided Graph} {t : Correspondences} (h : k.Coherent graphs t)
    (kind : TypeName) (rule : RuleName) (member : ElementId) :
    k.Coherent (graphs.put k.target ((graphs.on k.target).add kind).2)
      (t.without rule k.source member) :=
  have hw := Correspondences.without_sublist t rule k.source member
  (h.put ((h.sound k.target).add kind)).sublist hw.1 hw.2

theorem Recordable.made {graphs : Sided Graph} {t : Correspondences} (h : k.Coherent graphs t)
    {rule : Rule} (hr : k.rules.rule? rule.name = some rule) (kind : TypeName)
    (member : ElementId) :
    k.Recordable (graphs.put k.target ((graphs.on k.target).add kind).2)
      (t.without rule.name k.source member) rule
      (k.pair member ⟨(graphs.on k.target).next⟩) := by
  refine ⟨hr, .inr ⟨?_, ?_, ?_, ?_⟩⟩
  · intro c hc hn he
    rw [pair_source] at he
    exact (h.mem_without.mp hc).2 ⟨hn, he⟩
  · intro c hc he
    have hl := h.target_lt c (h.mem_without.mp hc).1
    simp [he] at hl
  · simp [Graph.add]
  · rw [pair_target]
    exact (h.sound k.target).next_ne_root

theorem keeps_enter {apply : Apply} {rule : Rule} {pair : Sided ElementId} {w : State}
    (ha : ∀ rule id pair, k.Keeps (apply rule id pair)) (h : k.Coherent w.graphs w.pairs)
    (hr : k.Recordable w.graphs w.pairs rule pair) :
    wp (enter k.direction apply rule pair) (fun _ w' => k.Coherent w'.graphs w'.pairs)
      (fun _ w' => k.Coherent w'.graphs w'.pairs) w := by
  obtain ⟨hrule, ⟨c, hc, hn, rfl⟩ | ⟨hs, ht, hl, hm⟩⟩ := hr
  · exact wp_enter_recorded h hc hn (ha _ _ _ w h)
  · refine wp_enter_new hs ht
      (ha _ _ _ _ (h.append rfl hs ht hl ?_ (fun _ => hm) ⟨rule, hrule⟩))
    intro hf
    cases hf

theorem keeps_linkMember {apply : Apply} (ha : ∀ rule id pair, k.Keeps (apply rule id pair))
    (child : Child) (owner : ElementId) (earlier : List ElementId) (member : ElementId)
    (later : List ElementId) :
    k.Keeps (linkMember k.rules k.direction apply child k.source owner earlier member later) := by
  intro w h
  have rest {r : Rule} {p : ElementId} (w : State) (h : k.Coherent w.graphs w.pairs)
      (hr : k.Recordable w.graphs w.pairs r (k.pair member p)) :
      wp (do
          link k.source owner (child.roles.on k.source.other) p earlier later
          enter k.direction apply r (k.source.arrange member p)
          Pure.pure p)
        (fun _ w' => k.Coherent w'.graphs w'.pairs)
        (fun _ w' => k.Coherent w'.graphs w'.pairs) w := by
    rw [wp_bind]
    refine wp_link (fun _ _ => h) ?_ ?_
    · intro _
      rw [wp_bind]
      exact wp_imp (keeps_enter ha h hr) (fun _ _ h' => h')
    · intro ho hp hn g' hw
      have hf := (h.sound k.target).insertIdx hw hp hn (w.pairs.slot_le _ _ _ _)
      rw [wp_bind]
      exact wp_imp (keeps_enter ha (h.put hf) (hr.put hf)) (fun _ _ h' => h')
  rw [linkMember, wp_bind]
  refine wp_findOrCreate h (fun _ _ => h) (fun _ _ _ _ => h) ?_ ?_
  · intro ho c r hc hr
    have hm := (Correspondences.of_counterpart?_eq_some h.listed hc).1
    have hn := (RuleSet.mem_of_rule? hr).2
    have hp : c.elements = k.pair member (c.element k.target) := by
      rw [← hm.of_member]
      exact (k.pair_eq c.elements).symm
    exact rest w h ⟨hn ▸ hr, .inl ⟨c, hm.mem, hn.symm, hp⟩⟩
  · intro ho hc kind r hkind hr report _
    have hr' := k.rules.rule?_of_mem (RuleSet.mem_of_ruleFor? hr).1
    exact rest _ (h.made _ r.name member) (.made h hr' _ member)

theorem keeps_linkMembers {apply : Apply} (ha : ∀ rule id pair, k.Keeps (apply rule id pair))
    (child : Child) (owner : ElementId) (members earlier : List ElementId) :
    k.Keeps (linkMembers k.rules k.direction apply child k.source owner earlier members) := by
  induction members generalizing earlier with
  | nil => exact .pure _
  | cons member later ih =>
    exact .bind (keeps_linkMember ha child owner earlier member later) fun _ =>
      .bind (ih _) fun _ => .pure _

theorem keeps_unlinkStale (child : Child) (s : Side) (owner : ElementId)
    (partners : List ElementId) : k.Keeps (unlinkStale child s owner partners) := by
  refine .bind (.graph _) fun g => .bind (.liftGraph _) fun present => .forM fun e =>
    .bind .pairs fun t => ?_
  exact .ite _ (.bind (keeps_removeReference _ _ _ _) fun _ => .note _) (.pure _)

theorem keeps_syncRole {apply : Apply} (ha : ∀ rule id pair, k.Keeps (apply rule id pair))
    (child : Child) (pair : Sided ElementId) :
    k.Keeps (syncRole k.rules k.direction apply child k.source pair) := by
  refine .bind (.graph _) fun g => .bind (.liftGraph _) fun members => ?_
  refine .bind (keeps_linkMembers ha child _ members []) ?_
  intro partners
  exact .ite _ (keeps_unlinkStale child _ _ _) (.pure _)

theorem keeps_applyParts {apply : Apply} (ha : ∀ rule id pair, k.Keeps (apply rule id pair))
    (rule : Rule) (id : CorrespondenceId) (pair : Sided ElementId) :
    k.Keeps (applyParts k.rules k.direction apply rule id pair) := by
  refine .bind (.forM fun bi => .bind (keeps_applyBinding _ _ _ _ _ _) fun _ => .pure _) ?_
  intro _
  refine .forM ?_
  intro child
  have hd : k.direction.authorities = [k.source] := rfl
  rw [hd]
  exact .bind (keeps_syncRole ha child pair) fun _ => .pure _

theorem keeps_applyRule (fuel : Nat) (path : List CorrespondenceId) (rule : Rule)
    (id : CorrespondenceId) (pair : Sided ElementId) :
    k.Keeps (applyRule k.rules k.direction fuel path rule id pair) := by
  induction fuel generalizing path rule id pair with
  | zero => exact .throw _
  | succ fuel ih =>
    unfold applyRule
    have parts := keeps_applyParts (ih (id :: path)) rule id pair
    refine .ite _ (.bind (.throw _) fun _ => ?_) ?_ <;>
      exact .bind .get fun w => .ite _ (.pure _) (.bind (.modifyPairs fun _ h => h) fun _ => parts)

theorem keeps_start (rule : Rule) (id : CorrespondenceId) (pair : Sided ElementId) :
    k.Keeps (start k.rules k.direction rule id pair) :=
  .bind .get fun _ => keeps_applyRule _ _ _ _ _

theorem keeps_unlinkWalked (s : Side) (e : ElementId) : k.Keeps (unlinkWalked k.rules s e) := by
  refine .bind (.graph _) fun g => .forM fun place => .bind .pairs fun t => .ite _ ?_ (.pure _)
  exact .bind (keeps_removeReference _ _ _ _) fun b => .ite _ (.note _) (.pure _)

theorem keeps_releasePair (id : CorrespondenceId) : k.Keeps (releasePair id) :=
  .bind (.modifyPairs fun _ h => h.remove id) fun _ => .note _

theorem keeps_releaseLost (d : Direction) (c : Correspondence) (s : Side) :
    k.Keeps (releaseLost k.rules d c s) := by
  refine .bind (.graph _) ?_
  intro g
  exact .ite _ (.bind (keeps_unlinkWalked _ _) fun _ => keeps_releasePair c.id)
    (keeps_releasePair c.id)

theorem keeps_releaseAllLost (d : Direction) : k.Keeps (releaseAllLost k.rules d) :=
  .bind .get fun _ => .forM fun _ => keeps_releaseLost d _ _

theorem keeps_anchor {r : Rule} (hr : k.rules.rule? k.rootRule = some r) (w : State)
    (h : k.Coherent w.graphs w.pairs) (d : Direction) :
    wp (onPairs (·.anchor k.rootRule (w.graphs.map Graph.root) d))
      (fun _ w' => k.Coherent w'.graphs w'.pairs)
      (fun _ w' => k.Coherent w'.graphs w'.pairs) w := by
  rw [wp_onPairs]
  rcases h.anchor_cases d with ⟨c, _, _, he⟩ | ⟨_, c, _, _, _, he⟩ | ⟨hn, hs, he⟩
  · rw [he]
    exact h
  · rw [he]
    exact h
  · rw [he]
    refine h.append rfl ?_ ?_ ?_ (fun _ => ⟨rfl, rfl⟩) ?_ ⟨r, hr⟩
    · intro a ha hr
      simpa using hs a ha hr
    · intro a ha
      simpa using h.member a ha (hn a ha)
    · simpa using (h.sound k.target).live_lt _ (h.sound k.target).root_live
    · intro hf
      cases hf

theorem keeps_syncRoots : k.Keeps (syncRoots k.rules k.direction k.rootRule) := by
  intro w h
  refine wp_syncRoots h (fun _ _ => h) (fun _ _ _ _ => h) ?_
  intro r hr _
  rw [wp_bind]
  apply wp_imp (keeps_anchor hr w h k.direction)
  intro o w' h'
  rw [wp_bind, wp_countPair, wp_bind]
  exact wp_mono (keeps_releaseAllLost k.direction _ h') (fun _ w' h' => keeps_start r o.id _ w' h')
    fun _ _ h' => h'

theorem keeps_carryAttribute (s : Side) (e : ElementId) (name : AttributeName) :
    k.Keeps (carryAttribute k.rules k.direction s e name) := by
  refine .bind (.graph _) fun g => .ite _ (.pure _) (.bind .pairs fun t => ?_)
  refine .bind (.mapM fun id => .bind .pairs fun t => ?_) fun _ => .pure _
  split
  · refine .bind (.liftRule _) fun r => .bind (.mapM fun bi => ?_) fun _ => .pure _
    exact keeps_applyBinding _ _ _ _ _ _
  · exact .pure _

theorem keeps_carryAddition (owner : ElementId) (role : RoleName) (target : ElementId) :
    k.Keeps (carryAddition k.rules k.direction k.source owner role target) := by
  refine .bind (.graph _) fun g => .ite _ (.pure _) (.bind (.liftGraph _) fun members => ?_)
  split
  · refine .bind .pairs fun t => .forM fun id => .bind .pairs fun t => ?_
    split
    · refine .bind (.liftRule _) fun r => .forM fun child => .bind ?_ fun _ => .pure _
      exact keeps_linkMember keeps_start child _ _ _ _
    · exact .pure _
  · exact .pure _

theorem keeps_unlink (s : Side) (owner : ElementId) (role : RoleName) (target : ElementId) :
    k.Keeps (unlink s owner role target) :=
  .bind (keeps_removeReference _ _ _ _) fun _ => .ite _ (.note _) (.pure _)

theorem keeps_carryRemoval (s : Side) (owner : ElementId) (role : RoleName) (target : ElementId) :
    k.Keeps (carryRemoval k.rules s owner role target) := by
  refine .bind (.graph _) fun g =>
    .ite _ (.pure _) (.bind .pairs fun t => .bind (.forM fun id => ?_) ?_)
  · refine .bind .pairs ?_
    intro t
    split
    · refine .bind (.liftRule _) fun r => .bind (.graph _) fun g =>
        .ite _ (.forM fun child => ?_) (.pure _)
      refine .bind (.graph _) fun g => .bind (.liftGraph _) fun present => .bind .pairs fun t =>
        .forM fun p => ?_
      exact keeps_unlink _ _ _ _
    · exact .pure _
  · refine fun _ => .ite _ (.modifyPairs fun w h => ?_) (.pure _)
    split
    · exact h
    · exact h

theorem keeps_carry (c : Change) : k.Keeps (carry k.rules k.direction k.source c) := by
  refine .bind (.modifyPairs fun _ h => h) fun _ => .bind .get fun w => ?_
  dsimp only
  split
  · exact .bind (keeps_carryAttribute _ _ _) fun _ => .bind .get fun w =>
      .ite _ (.pure _) (.pure _)
  · refine .bind (keeps_carryAddition _ _ _) fun _ => .bind (.pure _) fun _ => ?_
    exact .bind .get fun w => .ite _ (.pure _) (.pure _)
  · refine .bind (keeps_carryRemoval _ _ _ _) fun _ => .bind (.pure _) fun _ => ?_
    exact .bind .get fun w => .ite _ (.pure _) (.pure _)

end GraphSync.OneWay
