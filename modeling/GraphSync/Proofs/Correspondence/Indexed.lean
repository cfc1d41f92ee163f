import GraphSync.Proofs.Correspondence.Bijection
import GraphSync.Proofs.Slots
import Mathlib.Data.List.Find

namespace GraphSync.Correspondences

variable {t : Correspondences} {c : Correspondence} {rule : RuleName}
  {pair : Sided ElementId} {s : Side} {e : ElementId} {id : CorrespondenceId}

theorem lookup?_append (entries : List Correspondence) (c : Correspondence) (m n : Nat)
    (rule : RuleName) (s : Side) (e : ElementId) : lookup? ⟨entries ++ [c], n⟩ rule s e =
      (lookup? ⟨entries, m⟩ rule s e).or
        (if c.rule = rule ∧ c.element s = e then some c else none) := by
  simp [lookup?, List.find?_append, List.find?_singleton]

theorem pairing?_append (entries : List Correspondence) (c : Correspondence) (m n : Nat)
    (pair : Sided ElementId) :
    pairing? ⟨entries ++ [c], n⟩ pair =
      (pairing? ⟨entries, m⟩ pair).or (if c.elements = pair then some c else none) := by
  simp [pairing?, List.find?_append, List.find?_singleton]

theorem ofElement_append (entries : List Correspondence) (c : Correspondence) (m n : Nat) (s : Side)
    (e : ElementId) :
    ofElement ⟨entries ++ [c], n⟩ s e = ofElement ⟨entries, m⟩ s e ++
      if c.element s = e then [c] else [] := by
  simp [ofElement, List.filter_append, List.filter_singleton]

/-- A search for what tells one entry from all others no longer finds it when it is dropped, and
finds the same otherwise. -/
theorem find?_remove (h : t.Listed) (hc : c ∈ t.entries) {p : Correspondence → Bool}
    (hp : p c = true → ∀ a ∈ t.entries, p a = true → a = c) :
    (t.remove c.id).entries.find? p = if p c = true then none else t.entries.find? p := by
  unfold remove
  split
  · rename_i hpc
    refine List.find?_eq_none.mpr fun a ha hpa => ?_
    obtain ⟨hmem, hne⟩ := List.mem_filter.mp ha
    rw [hp hpc a hmem hpa] at hne
    simp at hne
  · rename_i hpc
    rw [List.find?_filter]
    refine List.find?_congr fun a ha => ?_
    by_cases hi : a.id = c.id
    · rw [h.eq_of_id ha hc hi]
      simpa using hpc
    · simp [hi]

theorem lookup?_remove (h : t.Bijective) (hc : c ∈ t.entries) (rule : RuleName) (s : Side)
    (e : ElementId) :
    (t.remove c.id).lookup? rule s e = if c.rule = rule ∧ c.element s = e then none else
      t.lookup? rule s e := by
  have hsearch := find?_remove h.listed hc (p := fun a => a.rule = rule ∧ a.element s = e)
    fun hpc a ha hpa => by
      simp only [decide_eq_true_eq] at hpc hpa
      exact h.key_inj s a ha c hc (hpa.1.trans hpc.1.symm) (hpa.2.trans hpc.2.symm)
  simp only [decide_eq_true_eq] at hsearch
  exact hsearch

theorem pairing?_remove (h : t.Bijective) (hc : c ∈ t.entries) (pair : Sided ElementId) :
    (t.remove c.id).pairing? pair = if c.elements = pair then none else t.pairing? pair := by
  have hsearch := find?_remove h.listed hc (p := fun a => a.elements = pair) fun hpc a ha hpa => by
    simp only [decide_eq_true_eq] at hpc hpa
    exact h.pair_inj a ha c hc (hpa.trans hpc.symm)
  simp only [decide_eq_true_eq] at hsearch
  exact hsearch

theorem anchor?_remove (h : t.Bijective) (hc : c ∈ t.entries) :
    (t.remove c.id).anchor? = if c.isAnchor = true then none else t.anchor? :=
  find?_remove h.listed hc fun hpc a ha hpa => h.anchor_unique a ha c hc hpa hpc

theorem remove_absent (h : t.get? id = none) : t.remove id = t := by
  have hne : ∀ c ∈ t.entries, decide (c.id ≠ id) = true := fun c hc => by
    simpa using List.find?_eq_none.mp h c hc
  simp only [remove, List.filter_eq_self.mpr hne]

/-- The pairs of an element are those of them that are left. -/
theorem ofElement_remove (t : Correspondences) (id : CorrespondenceId) (s : Side) (e : ElementId) :
    (t.remove id).ofElement s e = (t.ofElement s e).filter (·.id ≠ id) := by
  simp only [ofElement, remove, List.filter_filter, Bool.and_comm]

/-- A search by rule and elements finds the handle that it found before entries were changed. -/
theorem find?_modify (t : Correspondences) (id : CorrespondenceId)
    {f : Correspondence → Correspondence} (hf : Preserving f) {p : Correspondence → Bool}
    (hp : ∀ c, p (f c) = p c) :
    ((t.modify id f).entries.find? p).map (·.id) = (t.entries.find? p).map (·.id) := by
  have hg (c : Correspondence) : p (if c.id = id then f c else c) = p c := by split <;> simp [hp]
  have hid (c : Correspondence) : (if c.id = id then f c else c).id = c.id := by
    split <;> simp [(hf c).1]
  have hcomp : p ∘ (fun c => if c.id = id then f c else c) = p := funext hg
  simp only [modify, List.find?_map, hcomp, Option.map_map]
  congr 1
  exact funext hid

namespace Indexed

/-- The list of the pairs of an element as the table holds it. -/
def listing (ids : List CorrespondenceId) : Option (List CorrespondenceId) :=
  if ids = [] then none else some ids

theorem getD_listing (ids : List CorrespondenceId) : (listing ids).getD [] = ids := by
  unfold listing
  split
  · rename_i h
    rw [h]
    rfl
  · rfl

theorem bind_listing (ids : List CorrespondenceId) (p : CorrespondenceId → Bool) :
    ((listing ids).bind fun ids => listing (ids.filter p)) = listing (ids.filter p) := by
  by_cases h : ids = []
  · rw [h]
    rfl
  · simp [listing, h]

theorem getElem?_enroll (m : Std.HashMap (Side × ElementId) (List CorrespondenceId)) (s s' : Side)
    (e e' : ElementId) (id : CorrespondenceId) :
    (enroll m s e id)[(s', e')]? = if s = s' ∧ e = e' then some (m[(s, e)]?.getD [] ++ [id])
      else m[(s', e')]? := by
  simp [enroll, Std.HashMap.getElem?_alter]

theorem getElem?_dismiss (m : Std.HashMap (Side × ElementId) (List CorrespondenceId)) (s s' : Side)
    (e e' : ElementId) (id : CorrespondenceId) :
    (dismiss m s e id)[(s', e')]? =
      if s = s' ∧ e = e' then m[(s, e)]?.bind fun ids => listing (ids.filter (· ≠ id))
        else m[(s', e')]? := by
  simp only [dismiss, listing, Std.HashMap.getElem?_alter, beq_iff_eq, Prod.mk.injEq]

/-- The tables and the slots hold the list `t`. -/
structure Represents (x : Indexed) (t : Correspondences) : Prop where
  record : x.record = t
  placed : Placed Correspondence.id CorrespondenceId.mk 0 x.slots
  byKey : ∀ s rule e, (x.byKey.on s)[(rule, e)]? = (t.lookup? rule s e).map (·.id)
  byPair : ∀ pair, x.byPair[pair]? = (t.pairing? pair).map (·.id)
  byElement : ∀ s e, x.byElement[(s, e)]? = listing ((t.ofElement s e).map (·.id))
  anchored : x.anchored = t.anchor?.map (·.id)

variable {x x' : Indexed}

namespace Represents

theorem empty : Represents {} {} := by
  refine ⟨rfl, fun _ _ hi => (by cases hi), ?_, ?_, ?_, rfl⟩
  · intro s rule e
    cases s <;> simp [Sided.on, Correspondences.lookup?]
  · intro pair
    simp [pairing?]
  · intro s e
    simp [listing, Correspondences.ofElement]

theorem live (h : x.Represents t) : x.live = t.entries := congrArg Correspondences.entries h.record

theorem length_slots (h : x.Represents t) : x.slots.length = t.next :=
  congrArg Correspondences.next h.record

/-- A handle leads to its entry. -/
theorem get?_eq (h : x.Represents t) (hl : t.Listed) (id : CorrespondenceId) :
    x.get? id = t.get? id := by
  have hmem (c : Correspondence) :
      c ∈ t.entries ↔ ∃ i : Nat, x.slots[i]? = some (some c) := by
    rw [← h.live, Indexed.live, List.reduceOption_mem_iff, List.mem_iff_getElem?]
  cases hg : t.get? id with
  | some c =>
    have hc : c ∈ t.entries := List.mem_of_find?_eq_some hg
    have hid : c.id = id := by simpa using List.find?_some hg
    obtain ⟨i, hi⟩ := (hmem c).mp hc
    have hslot := h.placed i c hi
    have hindex : id.index = i := by
      rw [← hid, hslot]
      exact Nat.zero_add i
    rw [Indexed.get?, hindex, hi]
    rfl
  | none =>
    cases hx : x.get? id with
    | none => rfl
    | some c =>
      have hi : x.slots[id.index]? = some (some c) := Option.join_eq_some_iff.mp hx
      have hc := (hmem c).mpr ⟨id.index, hi⟩
      have hid : c.id = id := by
        rw [h.placed _ _ hi]
        exact congrArg CorrespondenceId.mk (Nat.zero_add id.index)
      have hfound := hl.get?_eq hc
      rw [hid, hg] at hfound
      cases hfound

/-- What a table finds is the entry that a search finds. -/
theorem bind_get? (h : x.Represents t) (hl : t.Listed) {found : Option Correspondence}
    (hf : ∀ c ∈ found, c ∈ t.entries) : (found.map (·.id)).bind x.get? = found := by
  cases found with
  | none => rfl
  | some c =>
    rw [Option.map_some, Option.bind_some, h.get?_eq hl]
    exact hl.get?_eq (hf c rfl)

theorem lookup?_eq (h : x.Represents t) (hl : t.Listed) (rule : RuleName) (s : Side)
    (e : ElementId) : x.lookup? rule s e = t.lookup? rule s e := by
  rw [Indexed.lookup?, h.byKey]
  exact h.bind_get? hl fun c hc => List.mem_of_find?_eq_some hc

theorem anchor?_eq (h : x.Represents t) (hl : t.Listed) : x.anchor? = t.anchor? := by
  rw [Indexed.anchor?, h.anchored]
  exact h.bind_get? hl fun c hc => List.mem_of_find?_eq_some hc

theorem ofElement_eq (h : x.Represents t) (s : Side) (e : ElementId) :
    x.ofElement s e = (t.ofElement s e).map (·.id) := by
  rw [Indexed.ofElement, h.byElement, getD_listing]

theorem filterMap_get? (h : x.Represents t) (hl : t.Listed) {cs : List Correspondence}
    (hcs : cs ⊆ t.entries) : (cs.map (·.id)).filterMap x.get? = cs := by
  rw [List.filterMap_map]
  refine (List.filterMap_congr (g := some) fun c hc => ?_).trans List.filterMap_some
  rw [Function.comp_apply, h.get?_eq hl]
  exact hl.get?_eq (hcs hc)

theorem partners_eq (h : x.Represents t) (hl : t.Listed) (s : Side) (e : ElementId) :
    x.partners s e = t.partners s e := by
  have hsub : t.ofElement s e ⊆ t.entries := List.filter_subset_self _
  rw [Indexed.partners, h.ofElement_eq, h.filterMap_get? hl hsub]
  rfl

/-- A pair without a rival is recorded in a new slot, and under all its keys. -/
theorem push (h : x.Represents t) (hr : t.rival? rule pair = none) (d : Direction) :
    (x.push rule pair d).Represents
      { entries := t.entries ++ [t.newEntry rule pair d], next := t.next + 1 } := by
  have hkey := rival?_eq_none hr
  have hpair := pairing?_eq_none hr
  have hlen := h.length_slots
  let c := t.newEntry rule pair d
  have hentry :
      ({ id := ⟨x.slots.length⟩, rule, elements := pair, createdIn := d } : Correspondence) =
        c := by
    rw [hlen]
    rfl
  refine ⟨?_, ?_, ?_, ?_, ?_, ?_⟩
  · have hlive : x.slots.reduceOption = t.entries := h.live
    simp only [Indexed.record, Indexed.live, Indexed.push, List.reduceOption_append,
      List.reduceOption_singleton,
      Option.toList_some, List.length_append, List.length_singleton, hlive, hlen, newEntry]
  · exact h.placed.concat rfl
  · intro s rule' e
    rw [lookup?_append t.entries c t.next]
    have htable : ((x.push rule pair d).byKey.on s)[(rule', e)]? =
        if rule = rule' ∧ pair.on s = e then some ⟨x.slots.length⟩
          else (x.byKey.on s)[(rule', e)]? := by
      cases s <;> simp only [Indexed.push, Sided.on, Std.HashMap.getElem?_insert, beq_iff_eq,
        Prod.mk.injEq] <;> congr
    rw [htable, h.byKey]
    split
    · rename_i hk
      have hnone : t.lookup? rule' s e = none :=
        lookup?_eq_none fun a ha har => hk.2 ▸ hkey s a ha (har.trans hk.1.symm)
      have hc : c.rule = rule' ∧ c.element s = e := hk
      rw [hnone, Option.none_or, if_pos hc, hlen]
      rfl
    · rename_i hk
      have hc : ¬ (c.rule = rule' ∧ c.element s = e) := hk
      rw [if_neg hc, Option.or_none]
  · intro pair'
    rw [pairing?_append t.entries c t.next]
    have htable : (x.push rule pair d).byPair[pair']? =
        if pair = pair' then some ⟨x.slots.length⟩ else x.byPair[pair']? := by
      simp [Indexed.push, Std.HashMap.getElem?_insert]
    rw [htable, h.byPair]
    split
    · rename_i hp
      have hnone : t.pairing? pair' = none := by
        refine List.find?_eq_none.mpr fun a ha => ?_
        simpa using hp ▸ hpair a ha
      have hc : c.elements = pair' := hp
      rw [hnone, Option.none_or, if_pos hc, hlen]
      rfl
    · rename_i hp
      have hc : ¬ c.elements = pair' := hp
      rw [if_neg hc, Option.or_none]
  · intro s e
    rw [ofElement_append t.entries c t.next]
    have htable : (x.push rule pair d).byElement[(s, e)]? =
        if pair.on s = e then some (x.byElement[(s, e)]?.getD [] ++ [⟨x.slots.length⟩])
          else x.byElement[(s, e)]? := by
      simp only [Indexed.push, getElem?_enroll]
      cases s
      · by_cases he : pair.left = e <;> simp [Sided.on, he]
      · by_cases he : pair.right = e <;> simp [Sided.on, he]
    rw [htable, h.byElement, getD_listing]
    have hc : c.element s = pair.on s := rfl
    rw [hc]
    split
    · simp [listing, hlen, c, newEntry]
    · rw [List.append_nil]
  · have hanchor : Correspondences.anchor? ⟨t.entries ++ [c], t.next + 1⟩ = t.anchor? := by
      simp [Correspondences.anchor?, List.find?_append, c, newEntry]
    rw [hanchor]
    exact h.anchored

/-- A dropped pair leaves its slot and all its keys. -/
theorem remove (h : x.Represents t) (hb : t.Bijective) (id : CorrespondenceId) :
    (x.remove id).1 = t.get? id ∧ (x.remove id).2.Represents (t.remove id) := by
  have hget := h.get?_eq hb.listed id
  cases hg : t.get? id with
  | none =>
    simp only [Indexed.remove, hget, hg, remove_absent hg]
    exact ⟨trivial, h⟩
  | some c =>
    have hc : c ∈ t.entries := List.mem_of_find?_eq_some hg
    obtain rfl : c.id = id := by simpa using List.find?_some hg
    obtain ⟨hplaced, hslots⟩ := h.placed.clear (fun _ _ => CorrespondenceId.mk.inj) c.id.index
    have hlive : x.slots.reduceOption = t.entries := h.live
    rw [hlive] at hslots
    simp only [Indexed.remove, hget, hg]
    refine ⟨trivial, ?_, hplaced, ?_, ?_, ?_, ?_⟩
    · simp only [Indexed.record, Indexed.live, hslots, List.length_modify, h.length_slots,
        Correspondences.remove]
    · intro s rule e
      have htable :
          ((⟨x.byKey.left.erase (c.rule, c.element .left),
            x.byKey.right.erase (c.rule, c.element .right)⟩ :
          Sided (Std.HashMap (RuleName × ElementId) CorrespondenceId)).on s)[(rule, e)]? =
            if c.rule = rule ∧ c.element s = e then none else (x.byKey.on s)[(rule, e)]? := by
        cases s <;> simp only [Sided.on, Std.HashMap.getElem?_erase, beq_iff_eq, Prod.mk.injEq]
      rw [htable, h.byKey, lookup?_remove hb hc]
      split <;> rfl
    · intro pair
      simp only [Std.HashMap.getElem?_erase, beq_iff_eq]
      rw [h.byPair, pairing?_remove hb hc]
      split <;> rfl
    · intro s e
      have htable :
          (dismiss (dismiss x.byElement .left (c.element .left) c.id) .right (c.element .right)
            c.id)[(s, e)]? =
          if c.element s = e then x.byElement[(s, e)]?.bind fun ids =>
            listing (ids.filter (· ≠ c.id))
          else x.byElement[(s, e)]? := by
        simp only [getElem?_dismiss]
        cases s
        · by_cases he : c.element .left = e <;> simp [he]
        · by_cases he : c.element .right = e <;> simp [he]
      have hmap :
          ((t.remove c.id).ofElement s e).map (·.id) = ((t.ofElement s e).map (·.id)).filter
          (· ≠ c.id) := by
        rw [ofElement_remove, List.filter_map]
        rfl
      rw [htable, h.byElement, hmap]
      split
      · exact bind_listing _ _
      · rename_i hne
        -- the pair is not on the list of another element
        have hall :
            ((t.ofElement s e).map (·.id)).filter (· ≠ c.id) =
              (t.ofElement s e).map (·.id) := by
          refine List.filter_eq_self.mpr fun id hid => ?_
          obtain ⟨a, ha, rfl⟩ := List.mem_map.mp hid
          obtain ⟨hmem, hel⟩ := List.mem_filter.mp ha
          simp only [decide_eq_true_eq] at hel ⊢
          intro hi
          rw [hb.listed.eq_of_id hmem hc hi] at hel
          exact hne hel
        rw [hall]
    · rw [h.anchored, anchor?_remove hb hc]
      cases ha : t.anchor? with
      | none => simp
      | some a =>
        have hmem : a ∈ t.entries := List.mem_of_find?_eq_some ha
        have hanchor : a.isAnchor = true := List.find?_some ha
        by_cases hi : a.id = c.id
        · obtain rfl := hb.listed.eq_of_id hmem hc hi
          simp [hanchor]
        · have hnot : ¬ c.isAnchor = true :=
            fun hca => hi (congrArg _ (hb.anchor_unique a hmem c hc hanchor hca))
          simp [hi, hnot]

/-- An entry is changed in its slot; no key of it changes. -/
theorem modify (h : x.Represents t) {f : Correspondence → Correspondence} (hf : Preserving f)
    (id : CorrespondenceId) {anchored : Option CorrespondenceId}
    (ha : anchored = (t.modify id f).anchor?.map (·.id)) :
    Represents { x.modify id f with anchored } (t.modify id f) := by
  obtain ⟨hplaced, hslots⟩ :=
    h.placed.map (fun _ _ => CorrespondenceId.mk.inj) id.index fun c => (hf c).1
  have hlive : x.slots.reduceOption = t.entries := h.live
  rw [hlive] at hslots
  have helement (c : Correspondence) (s : Side) : (f c).element s = c.element s := by
    rw [Correspondence.element, (hf c).2.2, Correspondence.element]
  refine ⟨?_, hplaced, ?_, ?_, ?_, ha⟩
  · simp only [Indexed.record, Indexed.live, Indexed.modify, hslots, List.length_modify,
      h.length_slots, Correspondences.modify]
  · intro s rule e
    have hsearch :=
      find?_modify t id hf (p := fun c => c.rule = rule ∧ c.element s = e) fun c => by
        rw [(hf c).2.1, helement]
    exact (h.byKey s rule e).trans hsearch.symm
  · intro pair
    have hsearch :=
      find?_modify t id hf (p := fun c => c.elements = pair) fun c => by rw [(hf c).2.2]
    exact (h.byPair pair).trans hsearch.symm
  · intro s e
    have hids : ((t.modify id f).ofElement s e).map (·.id) = (t.ofElement s e).map (·.id) := by
      have hp (c : Correspondence) : decide ((if c.id = id then f c else c).element s = e) =
          decide (c.element s = e) := by split <;> simp [helement]
      have hid (c : Correspondence) : (if c.id = id then f c else c).id = c.id := by
        split <;> simp [(hf c).1]
      simp only [Correspondences.ofElement, Correspondences.modify, List.filter_map, List.map_map,
        Function.comp_def, hp, hid]
    rw [hids]
    exact h.byElement s e

theorem recordShadow (h : x.Represents t) (id : CorrespondenceId) (binding : Nat)
    (values : Shadow) :
    (x.recordShadow id binding values).Represents (t.recordShadow id binding values) := by
  have hsearch := find?_modify t id (preserving_remember binding values) (p := (·.isAnchor))
    fun _ => rfl
  exact h.modify (preserving_remember binding values) id (h.anchored.trans hsearch.symm)

/-- One entry is marked as the pair of the roots where none is. -/
theorem mark (h : x.Represents t) (hn : ∀ c ∈ t.entries, c.isAnchor = false)
    {c : Correspondence} (hc : c ∈ t.entries) :
    Represents { x.modify c.id ({ · with isAnchor := true }) with anchored := some c.id }
      (t.modify c.id ({ · with isAnchor := true })) := by
  refine h.modify preserving_mark c.id ?_
  cases hf : (t.modify c.id ({ · with isAnchor := true })).anchor? with
  | none =>
    have hmem :
        { c with isAnchor := true } ∈ (t.modify c.id ({ · with isAnchor := true })).entries :=
      List.mem_map.mpr ⟨c, hc, by simp⟩
    simpa using List.find?_eq_none.mp hf _ hmem
  | some a =>
    have ha : a.isAnchor = true := List.find?_some hf
    obtain ⟨b, hb, hba⟩ := List.mem_map.mp (List.mem_of_find?_eq_some hf)
    by_cases hi : b.id = c.id
    · rw [if_pos hi] at hba
      rw [Option.map_some, ← hba, ← hi]
    · rw [if_neg hi] at hba
      rw [← hba, hn b hb] at ha
      cases ha

end Represents

end Indexed

end GraphSync.Correspondences
