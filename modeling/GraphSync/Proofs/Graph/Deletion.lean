import GraphSync.Proofs.Dict
import GraphSync.Proofs.Graph.History
import GraphSync.Proofs.Graph.Records
import GraphSync.Proofs.Graph.Removal

namespace GraphSync

namespace Element

variable {e e' : Element}

/-- The record without `x` in its roles. A role that is left with nobody is not stored. -/
def without (x : ElementId) (e : Element) : Element :=
  { e with roles := e.roles.filterMap fun ts =>
    if ts.filter (· ≠ x) = [] then none else some (ts.filter (· ≠ x)) }

/-- The record but for its roles. -/
def base (e : Element) : Element := { e with roles := ∅ }

/-- Every stored role lists somebody. -/
def Compact (e : Element) : Prop := ∀ role, e.roles.get? role ≠ some []

/-- A role that was emptied cannot be told from one that was never used. -/
theorem ext_targets (hb : e.base = e'.base) (hc : e.Compact) (hc' : e'.Compact)
    (ht : ∀ role, e.targets role = e'.targets role) : e = e' := by
  have hroles : e.roles = e'.roles := Dict.ext_get? fun role => by
    have hrole : (e.roles.get? role).getD [] = (e'.roles.get? role).getD [] := ht role
    cases h : e.roles.get? role with
    | none =>
      cases h' : e'.roles.get? role with
      | none => rfl
      | some ts =>
        rw [h, h'] at hrole
        exact absurd (h'.trans (congrArg some hrole.symm)) (hc' role)
    | some ts =>
      rw [h] at hrole
      cases h' : e'.roles.get? role with
      | none =>
        rw [h'] at hrole
        exact absurd (h.trans (congrArg some hrole)) (hc role)
      | some ts' =>
        rw [h'] at hrole
        exact congrArg some hrole
  cases e
  cases e'
  simp only [base, mk.injEq] at hb hroles ⊢
  exact ⟨hb.1, hb.2.1, hb.2.2.1, hroles⟩

@[simp] theorem targets_without (x : ElementId) (e : Element) (role : RoleName) :
    (e.without x).targets role = (e.targets role).filter (· ≠ x) := by
  simp only [targets, without, Dict.get?_filterMap]
  cases e.roles.get? role with
  | none => rfl
  | some ts =>
    simp only [Option.bind_some, Option.getD_some]
    split
    · rename_i hnil
      exact hnil.symm
    · rfl

theorem compact_without (x : ElementId) (e : Element) : (e.without x).Compact := by
  intro role he
  simp only [without, Dict.get?_filterMap, Option.bind_eq_some_iff] at he
  obtain ⟨ts, _, hts⟩ := he
  split at hts
  · cases hts
  · rename_i hne
    exact hne (Option.some.inj hts)

theorem Compact.setTargets (h : e.Compact) (role : RoleName) (ts : List ElementId) :
    (e.setTargets role ts).Compact := by
  intro r hr
  simp only [Element.setTargets] at hr
  by_cases hts : ts = []
  · rw [if_pos hts] at hr
    by_cases hrole : r = role
    · simp [hrole] at hr
    · exact h r ((Dict.get?_erase_of_ne e.roles hrole).symm.trans hr)
  · rw [if_neg hts] at hr
    by_cases hrole : r = role
    · subst hrole
      exact hts (by simpa using hr)
    · exact h r ((Dict.get?_insert_of_ne e.roles ts hrole).symm.trans hr)

end Element

namespace Graph

variable {g g' : Graph}

/-- Older elements stand first, and no role is stored empty. -/
structure Normal (g : Graph) : Prop where
  rising : g.ids.Pairwise fun x y => x.index < y.index
  compact : ∀ x e, g.element? x = some e → e.Compact

theorem normal_new (name : String) (kind : TypeName) : (new name kind).Normal := by
  refine ⟨List.pairwise_singleton _ _, fun x e he role => ?_⟩
  obtain rfl : e = { id := ⟨0⟩, kind } := by simpa [new] using mem_of_element? he
  simp

namespace Normal

/-- The journal and its switch do not matter. -/
theorem congr (h : g.Normal) (he : g'.elements = g.elements) : g'.Normal := by
  refine ⟨?_, fun x e hx => h.compact x e ?_⟩
  · rw [Graph.ids, he]
    exact h.rising
  · rwa [Graph.element?, he] at hx

theorem rewrites (h : g.Normal) {x : ElementId} {f : Element → Element} (hw : g.Rewrites g' x f)
    (hf : ∀ e, e.Compact → (f e).Compact) : g'.Normal := by
  refine ⟨hw.ids ▸ h.rising, fun y e he => ?_⟩
  rw [hw.element?] at he
  split at he
  · obtain ⟨e₀, he₀, rfl⟩ := Option.map_eq_some_iff.mp he
    exact hf e₀ (h.compact y e₀ he₀)
  · exact h.compact y e he

theorem insertReference (h : g.Normal) {owner target : ElementId} {role : RoleName}
    {index : Nat} {b : Bool} (hr : g.insertReference owner role index target = .ok (b, g')) :
    g'.Normal := by
  rcases eq_or_rewrites_of_insertReference hr with rfl | ⟨_, _, _, _, hw⟩
  · exact h
  · exact h.rewrites hw fun e he => he.setTargets role _

theorem dropReference (h : g.Normal) (owner : ElementId) (role : RoleName) (target : ElementId) :
    (g.dropReference owner role target).Normal := by
  rcases dropReference_cases g owner target role with ⟨_, hg⟩ | ⟨_, hw⟩
  · rwa [hg]
  · exact h.rewrites hw fun e he => he.setTargets role _

theorem isolate (h : g.Normal) (x : ElementId) : (g.isolate x).Normal := by
  unfold Graph.isolate
  generalize g.referrers x = places
  induction places generalizing g with
  | nil => exact h
  | cons p places ih => exact ih (h.dropReference p.1 p.2 x)

theorem add (h : g.Normal) (hs : g.Sound) (kind : TypeName) : (g.add kind).2.Normal := by
  constructor
  · have hids : (g.add kind).2.ids = g.ids ++ [⟨g.next⟩] := List.map_append
    rw [hids, List.pairwise_append]
    refine ⟨h.rising, List.pairwise_singleton _ _, fun x hx y hy => ?_⟩
    rw [List.mem_singleton.mp hy]
    exact hs.live_lt x (mem_ids.mp hx)
  · intro x e he role
    by_cases hx : x = ⟨g.next⟩
    · subst x
      rw [element?_add_self kind hs.fresh] at he
      cases he
      simp
    · rw [element?_add_of_ne kind hx] at he
      exact h.compact x e he role

theorem edit (h : g.Normal) (hs : g.Sound) (e : Edit) : (g.edit e).Normal := by
  unfold Graph.edit
  split
  · rename_i o g' hp
    cases performs_of_ok hp with
    | add kind write => exact write ▸ h.add hs kind
    | set write => exact h.rewrites (rewrites_of_setValue write).2 fun e he => he
    | push write => exact h.insertReference write
    | insert write => exact h.insertReference write
    | unlink write => exact write ▸ h.dropReference _ _ _
    | @remove x _ write =>
      obtain ⟨_, _, hw, _⟩ := remove_ok write
      refine ⟨(h.isolate x).rising.sublist hw.ids, fun y e he => ?_⟩
      rw [hw.element?] at he
      split at he
      · cases he
      · exact (h.isolate x).compact y e he
  · exact h

theorem operate (h : g.Normal) (hs : g.Sound) (op : Operation) : (g.operate op).2.Normal := by
  cases op with
  | edit e =>
    have hedit : (g.operate (.edit e)).2 = g.edit e := by
      simp only [Graph.operate, Graph.edit]
      cases g.perform e <;> rfl
    exact hedit ▸ h.edit hs e
  | observe on => exact h.congr rfl
  | takeChanges => exact h.congr rfl
  | clone => exact h

theorem operateAll (h : g.Normal) (hs : g.Sound) (ops : List Operation) :
    (g.operateAll ops).2.Normal := by
  induction ops generalizing g with
  | nil => exact h
  | cons op ops ih => exact ih (h.operate hs op) (hs.creates_operate op).follows.sound

end Normal

theorem Sound.elements_eq (h : g.Sound) : g.elements = g.ids.filterMap g.element? := by
  have hself : g.elements.filterMap (g.element? ∘ Element.id) = g.elements.filterMap some :=
    List.filterMap_congr fun e he => h.element?_of_mem he
  rw [ids, List.filterMap_map, hself, List.filterMap_some]

theorem name_dropReference (g : Graph) (owner : ElementId) (role : RoleName) (target : ElementId) :
    (g.dropReference owner role target).name = g.name := by
  simp only [dropReference, record, modify]
  split
  · rfl
  · split <;> rfl

/-- Dropping a target changes the roles of elements and the journal, and nothing else. -/
theorem frame_foldl_dropReference (target : ElementId) (places : List (ElementId × RoleName))
    (g : Graph) :
    let g' := places.foldl (fun g r => g.dropReference r.1 r.2 target) g
    g' = { g with elements := g'.elements, journal := g'.journal } ∧ g'.ids = g.ids ∧
      ∀ y, (g'.element? y).map Element.base = (g.element? y).map Element.base := by
  induction places generalizing g with
  | nil => exact ⟨rfl, rfl, fun _ => rfl⟩
  | cons p places ih =>
    obtain ⟨heq, hids, hbase⟩ := ih (g.dropReference p.1 p.2 target)
    rcases dropReference_cases g p.1 target p.2 with ⟨_, hg⟩ | ⟨_, hw⟩
    · rw [List.foldl_cons, hg]
      exact ih g
    · refine ⟨heq.trans ?_, hids.trans hw.ids, fun y => (hbase y).trans ?_⟩
      · rw [name_dropReference, hw.next, hw.observed]
        rfl
      · rw [hw.element?]
        split
        · cases g.element? y <;> rfl
        · rfl

theorem Sound.elements_isolate (h : g.Sound) (ht : g.Normal) (x : ElementId) :
    (g.isolate x).elements = g.elements.map (·.without x) := by
  obtain ⟨_, hids, hbase⟩ := frame_foldl_dropReference x (g.referrers x) g
  have hsound : (g.isolate x).Sound := (h.isolate x).1.sound
  have helement (e : Element) (he : e ∈ g.elements) :
      (g.isolate x).element? e.id = some (e.without x) := by
    have hmap : ((g.isolate x).element? e.id).map Element.base = some e.base := by
      rw [← Option.map_some, ← h.element?_of_mem he]
      exact hbase e.id
    obtain ⟨e', he', hb⟩ := Option.map_eq_some_iff.mp hmap
    rw [he']
    refine congrArg some (Element.ext_targets hb ((ht.isolate x).compact e.id e' he')
      (e.compact_without x) fun role => ?_)
    have hm : (g.isolate x).members e.id role = (g.members e.id role).filter (· ≠ x) :=
      h.members_isolate x e.id role
    simpa [members, he', h.element?_of_mem he] using hm
  rw [hsound.elements_eq, show (g.isolate x).ids = g.ids from hids, ids,
    List.filterMap_map, ← List.filterMap_eq_map]
  exact List.filterMap_congr helement

/-- Whom a record speaks of: older owners first, the roles of one owner by name. -/
def Precedes (c d : Change) : Prop :=
  c.element.index < d.element.index ∨ c.element = d.element ∧
    compare c.effect.feature d.effect.feature = .lt

/-- The records say where `x` was in each role that listed it, and nothing else. -/
structure Departs (g : Graph) (x : ElementId) (cs : List Change) : Prop where
  exact : ∀ c, c ∈ cs ↔
    ∃ owner role index, c = ⟨owner, .referenceRemoved role index x⟩ ∧
      (g.members owner role)[index]? = some x
  ordered : cs.Pairwise Precedes

theorem referrers_ordered (ht : g.Normal) (x : ElementId) :
    (g.referrers x).Pairwise fun p q => p.1.index < q.1.index ∨ p.1 = q.1 ∧
      compare p.2 q.2 = .lt := by
  have howner {p : ElementId × RoleName} {e : Element}
      (hp : p ∈ (e.roles.entries.filter fun r => x ∈ r.2).map fun r => (e.id, r.1)) :
      p.1 = e.id := by
    obtain ⟨_, _, rfl⟩ := List.mem_map.mp hp
    rfl
  refine List.pairwise_flatMap.mpr ⟨fun e _ => ?_, ?_⟩
  · exact List.pairwise_map.mpr ((e.roles.sorted.filter _).imp fun hlt => .inr ⟨rfl, hlt⟩)
  · refine (List.pairwise_map.mp ht.rising).imp fun hlt p hp q hq => .inl ?_
    rwa [howner hp, howner hq]

theorem Sound.mem_leaves (h : g.Sound) {owner x : ElementId} {role : RoleName} {c : Change} :
    c ∈ g.leaves owner role x ↔
      ∃ index, c = ⟨owner, .referenceRemoved role index x⟩ ∧
        (g.members owner role)[index]? = some x := by
  -- a member has one place
  have hplace (index : Nat) :
      (g.members owner role).idxOf? x = some index ↔ (g.members owner role)[index]? = some x := by
    rw [List.idxOf?_eq_some_iff, List.getElem?_eq_some_iff]
    refine exists_congr fun hlt => and_iff_left_of_imp fun hat j hj hat' => Nat.ne_of_lt hj ?_
    exact (h.members_nodup owner role).getElem_inj_iff.mp (hat'.trans hat.symm)
  unfold leaves
  cases hi : (g.members owner role).idxOf? x with
  | none =>
    refine ⟨fun hc => (List.not_mem_nil hc).elim, fun ⟨index, _, hat⟩ => ?_⟩
    cases hi.symm.trans ((hplace index).mpr hat)
  | some index =>
    rw [List.mem_singleton]
    refine ⟨fun hc => ⟨index, hc, (hplace index).mp hi⟩, fun ⟨index', hc, hat⟩ => ?_⟩
    cases hi.symm.trans ((hplace index').mpr hat)
    exact hc

theorem Sound.departs (h : g.Sound) (ht : g.Normal) {x : ElementId} (hx : x ≠ g.root) :
    g.Departs x (g.records (.remove x)) := by
  have hrecords : g.records (.remove x) = (g.referrers x).flatMap fun p => g.leaves p.1 p.2 x :=
    if_pos hx
  rw [hrecords]
  refine ⟨fun c => ?_, ?_⟩
  · simp only [List.mem_flatMap, h.mem_leaves]
    constructor
    · rintro ⟨⟨owner, role⟩, _, index, hc, hat⟩
      exact ⟨owner, role, index, hc, hat⟩
    · rintro ⟨owner, role, index, hc, hat⟩
      exact ⟨(owner, role), mem_referrers (List.mem_of_getElem? hat), index, hc, hat⟩
  · refine List.pairwise_flatMap.mpr
      ⟨fun p _ => ?_, (referrers_ordered ht x).imp fun hlt c hc d hd => ?_⟩
    · unfold leaves
      split
      · exact List.pairwise_singleton _ _
      · exact .nil
    · obtain ⟨_, rfl, _⟩ := h.mem_leaves.mp hc
      obtain ⟨_, rfl, _⟩ := h.mem_leaves.mp hd
      exact hlt

theorem Sound.remove_eq (h : g.Sound) (ht : g.Normal) {x : ElementId} {e : Element}
    (hroot : x ≠ g.root) (he : g.element? x = some e) :
    g.remove x = .ok (e.without x, { g with
      elements := (g.elements.filter (·.id ≠ x)).map (·.without x)
      journal := g.journal ++ if g.observed then g.records (.remove x) else [] }) := by
  obtain ⟨hframe, _, _⟩ := frame_foldl_dropReference x (g.referrers x) g
  have hframe : g.isolate x =
      { g with elements := (g.isolate x).elements, journal := (g.isolate x).journal } := hframe
  have helements := h.elements_isolate ht x
  have hjournal : (g.isolate x).journal = g.journal ++ if g.observed then g.records (.remove x)
      else [] := by
    rw [records, if_pos hroot]
    exact h.journal_foldl_dropReference x (g.referrers x) (h.referrers_nodup x)
  have hleft : (g.isolate x).element? x = some (e.without x) := by
    have hid (a : Element) : (a.without x).id = a.id := rfl
    have hfind : g.elements.find? (·.id = x) = some e := he
    simp only [Graph.element?, helements, List.find?_map, Function.comp_def, hid, hfind,
      Option.map_some]
  have hrest : (g.isolate x).elements.filter (·.id ≠ x) = (g.elements.filter (·.id ≠ x)).map
      (·.without x) := by
    rw [helements, List.filter_map]
    rfl
  simp only [remove, hroot, if_false, element_eq, he, hleft, hrest, bind, Except.bind, pure,
    Except.pure]
  rw [hframe, hjournal]

/-- Whatever was done to a graph before, a deletion is exact. The root and an element that is gone
are refused, and nothing changes. Any other element is handed out with its attributes and without
itself in its roles; every other element keeps its attributes and, in their order, the other members
of its roles. If the graph is observed, one record tells of each role that listed the element where
it stood there, the roles of older owners first and those of one owner by name. -/
theorem operate_remove (name : String) (kind : TypeName) (ops : List Operation) (x : ElementId) :
    let g := ((new name kind).operateAll ops).2
    if x = g.root then g.operate (.edit (.remove x)) = (.refused (.rootRemoval x), g)
    else match g.element? x with
      | none => g.operate (.edit (.remove x)) = (.refused (.unknownElement x), g)
      | some e => ∃ cs, g.Departs x cs ∧
        g.operate (.edit (.remove x)) = (.edited (.removed (e.without x)), { g with
          elements := (g.elements.filter (·.id ≠ x)).map (·.without x)
          journal := g.journal ++ if g.observed then cs else [] }) := by
  intro g
  have hs : g.Sound := ((sound_new name kind).creates_operateAll ops).follows.sound
  have ht : g.Normal := (normal_new name kind).operateAll (sound_new name kind) ops
  split
  · rename_i hroot
    simp [operate, perform, remove, hroot, bind, Except.bind, throw, throwThe, MonadExceptOf.throw]
  rename_i hroot
  split
  · rename_i hnone
    simp [operate, perform, remove, hroot, element_eq, hnone, bind, Except.bind]
  · rename_i e he
    refine ⟨g.records (.remove x), hs.departs ht hroot, ?_⟩
    simp only [operate, perform, hs.remove_eq ht hroot he, bind, Except.bind, pure, Except.pure]

end Graph

end GraphSync
