import GraphSync.Proofs.Graph.Journal
import Mathlib.Data.List.Nodup

namespace GraphSync.Graph

variable {g : Graph}

/-- A member joins a role. -/
def joins (g : Graph) (owner : ElementId) (role : RoleName) (index : Nat) (target : ElementId) :
    List Change :=
  if g.contains owner ∧ g.contains target ∧ target ∉ g.members owner role ∧
      index ≤ (g.members owner role).length then
    [⟨owner, .referenceAdded role index target⟩]
  else []

/-- A member leaves its place in a role. -/
def leaves (g : Graph) (owner : ElementId) (role : RoleName) (target : ElementId) : List Change :=
  match (g.members owner role).idxOf? target with
  | some index => [⟨owner, .referenceRemoved role index target⟩]
  | none => []

/-- What an edit does, as a journal tells it. An element that is deleted leaves every role that
lists it, the roles of the oldest owner first; neither its deletion nor the making of an element is
told otherwise. -/
def records (g : Graph) : Edit → List Change
  | .add _ => []
  | .set x name v =>
    if g.contains x ∧ ¬ (g.reading x name).same v then
      [⟨x, .attributeSet name (g.reading x name) v⟩] else []
  | .push owner role target => g.joins owner role (g.members owner role).length target
  | .insert owner role index target => g.joins owner role index target
  | .unlink owner role target => g.leaves owner role target
  | .remove x => if x ≠ g.root then (g.referrers x).flatMap fun p => g.leaves p.1 p.2 x else []

/-- What a list of edits does, one after the other. -/
def recordsAll (g : Graph) : List Edit → List Change
  | [] => []
  | e :: es => g.records e ++ (g.edit e).recordsAll es

theorem journal_setValue {x : ElementId} {name : AttributeName} {v before : Value} {g' : Graph}
    (hr : g.setValue x name v = .ok (before, g')) :
    g'.journal = g.journal ++ if g.observed then g.records (.set x name v) else [] := by
  cases hx : g.element? x with
  | none => simp [setValue, element_eq, hx, bind, Except.bind] at hr
  | some e =>
    have hlive : g.contains x = true := contains_iff.mpr ⟨e, hx⟩
    have hread : g.reading x name = e.value name := by simp [reading, hx]
    simp only [setValue, element_eq, hx, bind, Except.bind, pure, Except.pure, Except.ok.injEq,
      Prod.mk.injEq] at hr
    rw [← hr.2, records, hread, hlive]
    cases (e.value name).same v with
    | true => simp [modify]
    | false => simp [journal_record, modify]

theorem journal_insertReference {owner target : ElementId} {role : RoleName} {index : Nat}
    {b : Bool} {g' : Graph} (hr : g.insertReference owner role index target = .ok (b, g')) :
    g'.journal = g.journal ++ if g.observed then g.joins owner role index target else [] := by
  cases ht : g.element? target with
  | none => simp [insertReference, element_eq, ht, bind, Except.bind] at hr
  | some t =>
    cases ho : g.element? owner with
    | none => simp [insertReference, element_eq, ht, ho, bind, Except.bind] at hr
    | some e =>
      have hm : g.members owner role = e.targets role := by simp [members, ho]
      have hlive : g.contains owner = true ∧ g.contains target = true :=
        ⟨contains_iff.mpr ⟨e, ho⟩, contains_iff.mpr ⟨t, ht⟩⟩
      simp only [insertReference, element_eq, ht, ho, bind, Except.bind, pure, Except.pure] at hr
      unfold joins
      rw [hm]
      by_cases hin : target ∈ e.targets role
      · rw [if_pos hin] at hr
        cases hr
        simp [hin]
      · rw [if_neg hin] at hr
        by_cases hi : (e.targets role).length < index
        · rw [if_pos hi] at hr
          cases hr
        · rw [if_neg hi] at hr
          cases hr
          rw [journal_record,
            if_pos (And.intro hlive.1 (And.intro hlive.2 (And.intro hin (Nat.le_of_not_lt hi))))]
          rfl

theorem joins_of_error {owner target : ElementId} {role : RoleName} {index : Nat} {e : GraphError}
    (hr : g.insertReference owner role index target = .error e) :
    g.joins owner role index target = [] := by
  refine if_neg ?_
  rintro ⟨ho, ht, hn, hi⟩
  obtain ⟨g', he, _⟩ := insertReference_ok ho ht hn hi
  cases he.symm.trans hr

theorem journal_dropReference (g : Graph) (owner : ElementId) (role : RoleName)
    (target : ElementId) :
    (g.dropReference owner role target).journal =
      g.journal ++ if g.observed then g.leaves owner role target else [] := by
  have hmembers : ((g.element? owner).map (·.targets role)).getD [] = g.members owner role := rfl
  simp only [dropReference, leaves, hmembers]
  cases (g.members owner role).idxOf? target with
  | none => simp
  | some index => exact journal_record _ _

/-- No role is named twice: elements have different handles, and an element has one list of members
for each role. -/
theorem Sound.referrers_nodup (h : g.Sound) (target : ElementId) : (g.referrers target).Nodup := by
  have hpair {p : ElementId × RoleName} {e : Element}
      (hp : p ∈ (e.roles.entries.filter fun r => target ∈ r.2).map fun r => (e.id, r.1)) :
      p.1 = e.id := by
    obtain ⟨_, _, rfl⟩ := List.mem_map.mp hp
    rfl
  refine List.nodup_flatMap.mpr ⟨fun e _ => ?_, ?_⟩
  · refine (e.roles.sorted.filter _).map _ fun a b hlt he => ?_
    have hself : compare a.1 a.1 = .eq := Std.ReflCmp.compare_self
    rw [← (Prod.mk.inj he).2, hself] at hlt
    cases hlt
  · refine (List.pairwise_map.mp h.ids_nodup).imp fun hne p hp hp' => hne ?_
    exact (hpair hp).symm.trans (hpair hp')

theorem leaves_congr {g' : Graph} {owner : ElementId} {role : RoleName}
    (hm : g'.members owner role = g.members owner role) (target : ElementId) :
    g'.leaves owner role target = g.leaves owner role target := by
  rw [leaves, leaves, hm]

/-- What leaves one role has no bearing on the places in the others. -/
theorem Sound.journal_foldl_dropReference (target : ElementId)
    (places : List (ElementId × RoleName)) (hp : places.Nodup) {g : Graph} (h : g.Sound) :
    (places.foldl (fun g r => g.dropReference r.1 r.2 target) g).journal =
      g.journal ++ if g.observed then places.flatMap fun p => g.leaves p.1 p.2 target else [] := by
  induction places generalizing g with
  | nil => simp
  | cons p places ih =>
    obtain ⟨hnot, hrest⟩ := List.nodup_cons.mp hp
    have hdrop := h.relists_dropReference p.1 p.2 target
    have hleaves :
        (places.flatMap fun q => (g.dropReference p.1 p.2 target).leaves q.1 q.2 target) =
        places.flatMap fun q => g.leaves q.1 q.2 target := by
      refine List.flatMap_congr fun q hq => leaves_congr ?_ target
      rw [hdrop.members, if_neg]
      rintro ⟨h₁, h₂⟩
      exact hnot (Prod.ext h₁ h₂ ▸ hq)
    rw [List.foldl_cons, ih hrest (h.dropReference p.1 p.2 target).sound, journal_dropReference,
      hdrop.observed, hleaves]
    split <;> simp

/-- An element that is gone is in no role. -/
theorem Sound.leaves_of_dead (h : g.Sound) {target : ElementId} (hd : g.contains target = false)
    (owner : ElementId) (role : RoleName) : g.leaves owner role target = [] := by
  have hnot : target ∉ g.members owner role := fun hm =>
    Bool.noConfusion (hd.symm.trans (h.members_live owner role target hm))
  rw [leaves, List.idxOf?_eq_none_iff.mpr hnot]

theorem Sound.dead_of_remove_error (h : g.Sound) {x : ElementId} {err : GraphError}
    (hroot : x ≠ g.root) (hr : g.remove x = .error err) : g.contains x = false := by
  by_contra hlive
  rw [Bool.not_eq_false] at hlive
  obtain ⟨a, ha⟩ := contains_iff.mp hlive
  obtain ⟨b, hb⟩ := contains_iff.mp (((h.isolate x).2.1 x).trans hlive)
  simp [Graph.remove, hroot, element_eq, ha, hb, bind, Except.bind, pure, Except.pure] at hr

/-- An observed graph records what an edit does, and nothing else. -/
theorem Sound.journal_edit (h : g.Sound) (e : Edit) :
    (g.edit e).journal = g.journal ++ if g.observed then g.records e else [] := by
  cases e with
  | add kind => simp [Graph.edit, Graph.perform, Graph.add, records]
  | set x name v =>
    cases hr : g.setValue x name v with
    | ok p =>
      simp only [Graph.edit, Graph.perform, hr, bind, Except.bind, pure, Except.pure]
      exact journal_setValue hr
    | error err =>
      rcases setValue_eq g x name v with ⟨hdead, _⟩ | ⟨_, _, he, _⟩
      · simp [Graph.edit, Graph.perform, hr, bind, Except.bind, records, hdead]
      · cases he.symm.trans hr
  | push owner role target =>
    cases ho : g.contains owner with
    | false => simp [Graph.edit, Graph.perform, pushReference, references_eq, ho, bind, Except.bind,
        records, joins]
    | true =>
      cases hr : g.insertReference owner role (g.members owner role).length target with
      | ok p =>
        simp only [Graph.edit, Graph.perform, pushReference, references_eq, ho, if_true, hr, bind,
          Except.bind, pure, Except.pure]
        exact journal_insertReference hr
      | error err =>
        simp [Graph.edit, Graph.perform, pushReference, references_eq, ho, hr, bind,
          Except.bind, records, joins_of_error hr]
  | insert owner role index target =>
    cases hr : g.insertReference owner role index target with
    | ok p =>
      simp only [Graph.edit, Graph.perform, hr, bind, Except.bind, pure, Except.pure]
      exact journal_insertReference hr
    | error err =>
      simp [Graph.edit, Graph.perform, hr, bind, Except.bind, records, joins_of_error hr]
  | unlink owner role target =>
    cases ho : g.contains owner with
    | false =>
      have hnone : g.leaves owner role target = [] := by rw [leaves, members_of_dead ho]; rfl
      simp [Graph.edit, Graph.perform, removeReference_eq, ho, bind, Except.bind, records, hnone]
    | true =>
      simp only [Graph.edit, Graph.perform, removeReference_eq, ho, if_true, bind, Except.bind,
        pure, Except.pure]
      exact journal_dropReference g owner role target
  | remove x =>
    cases hr : g.remove x with
    | ok p =>
      obtain ⟨hroot, _, _, hj⟩ := remove_ok hr
      simp only [Graph.edit, Graph.perform, hr, bind, Except.bind, pure, Except.pure, records,
        if_pos hroot]
      rw [hj]
      exact h.journal_foldl_dropReference x (g.referrers x) (h.referrers_nodup x)
    | error err =>
      have hnone : g.records (.remove x) = [] := by
        rw [records]
        split
        · rename_i hroot
          exact List.flatMap_eq_nil_iff.mpr fun p _ =>
            h.leaves_of_dead (h.dead_of_remove_error hroot hr) p.1 p.2
        · rfl
      simp [Graph.edit, Graph.perform, hr, bind, Except.bind, hnone]

theorem Sound.observed_edit (h : g.Sound) (e : Edit) : (g.edit e).observed = g.observed := by
  obtain ⟨_, hlogs, _⟩ := logs_edit h e
  exact hlogs.observed

theorem Sound.journal_editAll (h : g.Sound) (es : List Edit) :
    (g.editAll es).journal = g.journal ++ if g.observed then g.recordsAll es else [] := by
  induction es generalizing g with
  | nil => simp [Graph.editAll, recordsAll]
  | cons e es ih =>
    have hrest : ((g.edit e).editAll es).journal = _ := ih (h.edit e).sound
    have hcons : g.editAll (e :: es) = (g.edit e).editAll es := rfl
    rw [hcons, hrest, h.journal_edit, h.observed_edit, recordsAll]
    split <;> simp

end GraphSync.Graph
