import GraphSync.Graph.Arena
import GraphSync.Proofs.Graph.Deletion
import GraphSync.Proofs.Slots

namespace GraphSync

namespace Element

@[simp] theorem targets_shown (e : Element) (role : RoleName) :
    e.shown.targets role = e.targets role := by
  simp only [targets, shown, Dict.get?_filter]
  cases e.roles.get? role with
  | none => rfl
  | some ts => cases ts <;> rfl

theorem value_shown (e : Element) (name : AttributeName) : e.shown.value name = e.value name := rfl

theorem compact_shown (e : Element) : e.shown.Compact := by
  intro role he
  rw [shown, Dict.get?_filter, Option.filter_eq_some_iff] at he
  simp at he

theorem targets_fill (e : Element) (role r : RoleName) (ts : List ElementId) :
    (e.fill role ts).targets r = if r = role then ts else e.targets r := by
  split
  · rename_i h
    subst h
    simp [targets, fill]
  · rename_i h
    simp [targets, fill, Dict.get?_insert_of_ne _ _ h]

/-- The place of a role is seen by its targets only. -/
theorem shown_fill (e : Element) (role : RoleName) (ts : List ElementId) :
    (e.fill role ts).shown = e.shown.setTargets role ts := by
  refine ext_targets rfl (compact_shown _) (e.compact_shown.setTargets role ts) fun r => ?_
  rw [targets_shown, targets_fill]
  split
  · rename_i h
    rw [h, targets_setTargets_self]
  · rename_i h
    rw [targets_setTargets_of_ne _ _ h, targets_shown]

/-- A place that is made for a role cannot be seen. -/
theorem shown_reserve (e : Element) (role : RoleName) : (e.reserve role).shown = e.shown := by
  refine ext_targets rfl (compact_shown _) (compact_shown _) fun r => ?_
  rw [targets_shown, targets_shown, reserve, targets_fill]
  split
  · rename_i h
    rw [h]
  · rfl

/-- The roles that list an element are seen. -/
theorem listing_shown (e : Element) (target : ElementId) :
    e.shown.roles.entries.filter (fun r => target ∈ r.2) =
      e.roles.entries.filter (fun r => target ∈ r.2) := by
  rw [shown, Dict.filter, List.filter_filter]
  refine List.filter_congr fun r _ => ?_
  by_cases hr : r.2 = [] <;> simp [hr]

end Element

theorem Graph.contains_isolate (g : Graph) (x y : ElementId) :
    (g.isolate x).contains y = g.contains y := by
  have hbase : ((g.isolate x).element? y).map Element.base = (g.element? y).map Element.base :=
    (frame_foldl_dropReference x (g.referrers x) g).2.2 y
  simpa only [contains, Option.isSome_map] using congrArg Option.isSome hbase

namespace Arena

/-- Callers see `g`, and each element stands in the slot of its handle. -/
structure Shows (a : Arena) (g : Graph) : Prop where
  shown : a.shown = g
  placed : Placed Element.id ElementId.mk 0 a.slots

variable {a a' : Arena} {g g' : Graph}

theorem injective_mk : Function.Injective ElementId.mk := fun _ _ => ElementId.mk.inj

namespace Shows

theorem new (name : String) (kind : TypeName) :
    (Arena.new name kind).Shows (Graph.new name kind) := by
  refine ⟨rfl, fun i e hi => ?_⟩
  cases i with
  | zero =>
    cases hi
    rfl
  | succ i => simp [Arena.new] at hi

theorem elements (h : a.Shows g) : g.elements = a.live.map Element.shown := h.shown ▸ rfl

theorem element? (h : a.Shows g) (x : ElementId) :
    g.element? x = (a.element? x).map Element.shown := by
  have hslot : a.element? x = a.live.find? (·.id = ⟨0 + x.index⟩) :=
    h.placed.join_getElem? injective_mk x.index
  rw [hslot, Nat.zero_add, Graph.element?, h.elements, List.find?_map]
  rfl

theorem element (h : a.Shows g) (x : ElementId) :
    g.element x = (a.element x).map Element.shown := by
  rw [Graph.element, h.element?, Arena.element]
  cases a.element? x <;> rfl

theorem contains (h : a.Shows g) (x : ElementId) : g.contains x = (a.element? x).isSome := by
  rw [Graph.contains, h.element?, Option.isSome_map]

theorem typeOf (h : a.Shows g) (x : ElementId) : g.typeOf x = (a.element x).map Element.kind := by
  rw [Graph.typeOf, h.element]
  cases a.element x <;> rfl

theorem value (h : a.Shows g) (x : ElementId) (name : AttributeName) :
    g.value x name = (a.element x).map (·.value name) := by
  rw [Graph.value, h.element]
  cases a.element x <;> rfl

theorem references (h : a.Shows g) (x : ElementId) (role : RoleName) :
    g.references x role = (a.element x).map (·.targets role) := by
  rw [Graph.references, h.element]
  cases a.element x <;> simp [Except.map]

theorem elementsOfType (h : a.Shows g) (kind : TypeName) :
    g.elementsOfType kind = (a.live.filter (·.kind = kind)).map Element.shown := by
  rw [Graph.elementsOfType, h.elements, List.filter_map]
  rfl

theorem referrers (h : a.Shows g) (target : ElementId) :
    g.referrers target = a.referrers target := by
  rw [Graph.referrers, Arena.referrers, h.elements, List.flatMap_map]
  refine List.flatMap_congr fun e _ => ?_
  rw [Element.listing_shown]
  rfl

/-- A question is answered from what callers see. -/
theorem ask (h : a.Shows g) (q : Graph.Query) : a.ask q = g.ask q := by
  cases q with
  | name | root | observed | journal => exact h.shown ▸ rfl
  | size => exact (List.length_map _).symm.trans (congrArg List.length h.elements).symm
  | elements => exact h.elements.symm
  | elementsOfType kind => exact (h.elementsOfType kind).symm
  | contains x => exact (h.contains x).symm
  | element x => exact (h.element x).symm
  | typeOf x => exact (h.typeOf x).symm
  | value x name => exact (h.value x name).symm
  | references x role => exact (h.references x role).symm
  | referrers target => exact (h.referrers target).symm

theorem modify (h : a.Shows g) (x : ElementId) {f f' : Element → Element}
    (hid : ∀ e, (f e).id = e.id) (hf : ∀ e, (f e).shown = f' e.shown) :
    (a.modify x f).Shows (g.modify x f') := by
  obtain ⟨hplaced, hlive⟩ := h.placed.map injective_mk x.index hid
  have hlive : (a.modify x f).live = a.live.map fun e => if e.id = x then f e else e := hlive
  have helements : (a.modify x f).live.map Element.shown =
      (a.live.map Element.shown).map fun e => if e.id = x then f' e else e := by
    rw [hlive, List.map_map, List.map_map]
    refine List.map_congr_left fun e _ => ?_
    rw [Function.comp_apply, Function.comp_apply, apply_ite Element.shown, hf]
    rfl
  refine ⟨?_, hplaced⟩
  rw [← h.shown, Arena.shown, helements]
  simp only [Graph.modify, Arena.shown, Arena.modify, List.length_modify]

theorem record (h : a.Shows g) (c : Change) : (a.record c).Shows (g.record c) := by
  have hobserved : g.observed = a.observed := h.shown ▸ rfl
  unfold Arena.record Graph.record
  rw [hobserved]
  split
  · exact ⟨h.shown ▸ rfl, h.placed⟩
  · exact h

theorem fill (h : a.Shows g) (x : ElementId) (role : RoleName) (ts : List ElementId) :
    (a.modify x (·.fill role ts)).Shows (g.modify x (·.setTargets role ts)) :=
  h.modify x (fun _ => rfl) fun e => e.shown_fill role ts

/-- A place is made for a role, and callers see the graph that they saw. -/
theorem reserve (h : a.Shows g) (x : ElementId) (role : RoleName) :
    (a.modify x (·.reserve role)).Shows g := by
  have hsame : g.modify x id = g := by simp [Graph.modify]
  exact hsame ▸ h.modify x (fun _ => rfl) fun e => e.shown_reserve role

theorem add (h : a.Shows g) (kind : TypeName) :
    (a.add kind).1 = (g.add kind).1 ∧ (a.add kind).2.Shows (g.add kind).2 := by
  have hnext : g.next = a.slots.length := h.shown ▸ rfl
  refine ⟨congrArg ElementId.mk hnext.symm, ?_, h.placed.concat rfl⟩
  rw [← h.shown]
  simp [Arena.shown, Arena.add, Graph.add, Arena.live, Element.shown, Dict.filter]
  rfl

/-- The slot of an element is emptied. -/
theorem clear (h : a.Shows g) (x : ElementId) :
    Shows { a with slots := a.slots.modify x.index fun _ => none }
      { g with elements := g.elements.filter (·.id ≠ x) } := by
  obtain ⟨hplaced, hlive⟩ := h.placed.clear injective_mk x.index
  have hlive :
      (a.slots.modify x.index fun _ => none).filterMap id = a.live.filter (·.id ≠ x) := hlive
  refine ⟨?_, hplaced⟩
  rw [← h.shown]
  simp only [Arena.shown, Arena.live, hlive, List.length_modify, List.filter_map]
  rfl

end Shows

/-- A call on the stored graph and the call on the graph that is seen: both answer alike, a result
of the one being seen through `f`, and the one shows the other afterwards. A refused call leaves
what is seen as it was. -/
inductive Agree {α β : Type} (f : α → β) (g : Graph) :
    Except GraphError α × Arena → Except GraphError (β × Graph) → Prop where
  | done (r : α) {a : Arena} {g' : Graph} (h : a.Shows g') : Agree f g (.ok r, a) (.ok (f r, g'))
  | refused (e : GraphError) {a : Arena} (h : a.Shows g) : Agree f g (.error e, a) (.error e)

/-- The result of a call is handed on as `c` puts it. -/
theorem Agree.outcome {α β : Type} {f : α → β} {r : Except GraphError α × Arena}
    {r' : Except GraphError (β × Graph)} (h : Agree f g r r') (c : β → Edit.Outcome) :
    Agree id g (r.1.map fun x => c (f x), r.2) (r'.map fun p => (c p.1, p.2)) := by
  cases h with
  | done x h => exact .done _ h
  | refused e h => exact .refused e h

namespace Shows

theorem setValue (h : a.Shows g) (x : ElementId) (name : AttributeName) (v : Value) :
    Agree id g (a.setValue x name v) (g.setValue x name v) := by
  rw [Graph.setValue, h.element, Arena.setValue]
  cases a.element x with
  | error err => exact .refused err h
  | ok e =>
    have hw : (a.modify x (·.setValue name v)).Shows (g.modify x (·.setValue name v)) :=
      h.modify x (fun _ => rfl) fun _ => rfl
    refine .done (e.value name) ?_
    rw [e.value_shown]
    split
    · exact hw
    · exact hw.record _

theorem insertReference (h : a.Shows g) (owner : ElementId) (role : RoleName) (index : Nat)
    (target : ElementId) :
    Agree id g (a.insertReference owner role index target)
      (g.insertReference owner role index target) := by
  rw [Graph.insertReference, h.element, h.element, Arena.insertReference]
  cases a.element target with
  | error err => exact .refused err h
  | ok t =>
    cases a.element owner with
    | error err => exact .refused err h
    | ok e =>
      have hr : (a.modify owner (·.reserve role)).Shows g := h.reserve owner role
      simp only [Except.map, bind, Except.bind, pure, Except.pure, Element.targets_shown]
      by_cases hin : target ∈ e.targets role
      · simp only [hin, if_true]
        exact .done false hr
      · by_cases hlt : (e.targets role).length < index
        · simp only [hin, hlt, if_true, if_false]
          exact .refused _ hr
        · simp only [hin, hlt, if_false]
          exact .done true ((hr.fill owner role _).record _)

theorem pushReference (h : a.Shows g) (owner : ElementId) (role : RoleName) (target : ElementId) :
    Agree id g (a.pushReference owner role target) (g.pushReference owner role target) := by
  rw [Graph.pushReference, h.references, Arena.pushReference]
  cases a.element owner with
  | error err => exact .refused err h
  | ok e => exact h.insertReference owner role _ target

theorem removeReference (h : a.Shows g) (owner : ElementId) (role : RoleName) (target : ElementId) :
    Agree id g (a.removeReference owner role target) (g.removeReference owner role target) := by
  rw [Graph.removeReference_eq, h.contains, Graph.members, Graph.dropReference, h.element?,
    Arena.removeReference, Arena.element]
  cases a.element? owner with
  | none => exact .refused _ h
  | some e =>
    simp only [Option.map_some, Option.getD_some, Option.isSome_some, if_true,
      Element.targets_shown]
    cases hi : (e.targets role).idxOf? target with
    | none =>
      have hnot : target ∉ e.targets role := List.idxOf?_eq_none_iff.mp hi
      simp only [hnot, decide_false]
      exact .done false h
    | some index =>
      have hin : target ∈ e.targets role := List.isSome_idxOf?.mp (by rw [hi]; rfl)
      simp only [hin, decide_true]
      exact .done true ((h.fill owner role _).record _)

/-- An element leaves the roles of elements that are live, none of which refuses. -/
theorem removeReferences (h : a.Shows g) (target : ElementId)
    (places : List (ElementId × RoleName)) (hlive : ∀ p ∈ places, g.contains p.1 = true) :
    (a.removeReferences target places).1 = .ok () ∧ (a.removeReferences target places).2.Shows
      (places.foldl (fun g r => g.dropReference r.1 r.2 target) g) := by
  induction places generalizing a g with
  | nil => exact ⟨rfl, h⟩
  | cons p places ih =>
    have hp : g.contains p.1 = true := hlive p List.mem_cons_self
    have hagree := h.removeReference p.1 p.2 target
    rw [Graph.removeReference_eq, if_pos hp] at hagree
    simp only [Arena.removeReferences, List.foldl_cons]
    generalize a.removeReference p.1 p.2 target = answer at hagree
    cases hagree with
    | done b h' =>
      refine ih h' fun q hq => ?_
      rw [Graph.contains_dropReference]
      exact hlive q (List.mem_cons_of_mem p hq)

theorem remove (h : a.Shows g) (x : ElementId) :
    Agree Element.shown g (a.remove x) (g.remove x) := by
  by_cases hroot : x = g.root
  · have hroot' : x = a.root := hroot
    rw [Graph.remove, Arena.remove, if_pos hroot, if_pos hroot']
    exact .refused _ h
  · have hroot' : ¬ x = a.root := hroot
    rw [Graph.remove, Arena.remove, if_neg hroot, if_neg hroot']
    cases he : a.element x with
    | error err =>
      rw [h.element, he]
      exact .refused err h
    | ok e =>
      obtain ⟨hok, h'⟩ := h.removeReferences x (a.referrers x) fun p hp =>
        Graph.contains_of_mem_referrers (h.referrers x ▸ hp)
      have hisolate : (a.referrers x).foldl (fun g r => g.dropReference r.1 r.2 x) g =
          g.isolate x := by
        rw [Graph.isolate, h.referrers]
      rw [hisolate] at h'
      generalize a.removeReferences x (a.referrers x) = answer at hok h'
      obtain ⟨r, a'⟩ := answer
      obtain rfl : r = .ok () := hok
      -- the element is still there when all that listed it have let it go
      have hlive : (a'.element? x).isSome = true := by
        rw [← h'.contains, Graph.contains_isolate, h.contains]
        cases hx : a.element? x with
        | some e => rfl
        | none => simp [Arena.element, hx] at he
      obtain ⟨e', he'⟩ := Option.isSome_iff_exists.mp hlive
      have hfound : a'.element x = .ok e' := by rw [Arena.element, he']
      simp only [h.element, h'.element, he, hfound]
      exact .done e' (h'.clear x)

/-- An edit goes the same way for the stored graph and for the one that is seen. -/
theorem perform (h : a.Shows g) (e : Edit) : Agree id g (a.perform e) (g.perform e) := by
  cases e with
  | add kind =>
    obtain ⟨hid, h'⟩ := h.add kind
    simp only [Arena.perform, Graph.perform, hid]
    exact .done _ h'
  | set x name v => exact (h.setValue x name v).outcome .replaced
  | push owner role target => exact (h.pushReference owner role target).outcome .changed
  | insert owner role index target =>
    exact (h.insertReference owner role index target).outcome .changed
  | unlink owner role target => exact (h.removeReference owner role target).outcome .changed
  | remove x => exact (h.remove x).outcome .removed

theorem operate (h : a.Shows g) (op : Graph.Operation) :
    (a.operate op).1 = (g.operate op).1 ∧ (a.operate op).2.Shows (g.operate op).2 := by
  cases op with
  | edit e =>
    have hagree := h.perform e
    simp only [Arena.operate, Graph.operate]
    generalize a.perform e = answer, g.perform e = answer' at hagree
    cases hagree with
    | done r h' => exact ⟨rfl, h'⟩
    | refused err h' => exact ⟨rfl, h'⟩
  | observe on => exact ⟨rfl, h.shown ▸ rfl, h.placed⟩
  | takeChanges =>
    exact ⟨congrArg Graph.Answer.drained (h.shown ▸ rfl), h.shown ▸ rfl, h.placed⟩
  | clone => exact ⟨congrArg Graph.Answer.copied h.shown, h⟩

theorem operateAll (h : a.Shows g) (ops : List Graph.Operation) :
    (a.operateAll ops).1 = (g.operateAll ops).1 ∧
    (a.operateAll ops).2.Shows (g.operateAll ops).2 := by
  induction ops generalizing a g with
  | nil => exact ⟨rfl, h⟩
  | cons op ops ih =>
    obtain ⟨hanswer, h'⟩ := h.operate op
    obtain ⟨hlog, h''⟩ := ih h'
    simp only [Arena.operateAll, Graph.operateAll, hanswer, hlog]
    exact ⟨trivial, h''⟩

end Shows

/-- Whatever is done to a new graph, the stored one answers as the one that is seen, and to any
question after that. -/
theorem operateAll_new (name : String) (kind : TypeName) (ops : List Graph.Operation) :
    ((Arena.new name kind).operateAll ops).1 = ((Graph.new name kind).operateAll ops).1 ∧
      ∀ q, ((Arena.new name kind).operateAll ops).2.ask q =
        ((Graph.new name kind).operateAll ops).2.ask q := by
  obtain ⟨hlog, h⟩ := (Shows.new name kind).operateAll ops
  exact ⟨hlog, h.ask⟩

end Arena

end GraphSync
