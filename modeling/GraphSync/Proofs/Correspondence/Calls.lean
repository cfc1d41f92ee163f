import GraphSync.Proofs.Correspondence.Indexed

namespace GraphSync.Correspondences

namespace Indexed

variable {x : Indexed} {t : Correspondences}

/-- Both records answer a request alike, and are the same record afterwards. -/
inductive Agree : Except PairConflict (Obtained × Indexed) →
    Except PairConflict (Obtained × Correspondences) → Prop where
  | obtained (o : Obtained) {x : Indexed} {t : Correspondences} (h : x.Represents t) :
      Agree (.ok (o, x)) (.ok (o, t))
  | refused (c : PairConflict) : Agree (.error c) (.error c)

theorem Represents.obtain? (h : x.Represents t) (hl : t.Listed) (rule : RuleName)
    (pair : Sided ElementId) (d : Direction) :
    Agree (x.obtain? rule pair d) (t.obtain? rule pair d) := by
  have hleft : x.byKey.left[(rule, pair.left)]? = (t.lookup? rule .left pair.left).map (·.id) :=
    h.byKey .left rule pair.left
  have hright :
      x.byKey.right[(rule, pair.right)]? = (t.lookup? rule .right pair.right).map (·.id) :=
    h.byKey .right rule pair.right
  have hknown :
      (x.byKey.left[(rule, pair.left)]?.or
        (x.byKey.right[(rule, pair.right)]?.or x.byPair[pair]?)).bind x.get? =
      t.rival? rule pair := by
    rw [hleft, hright, h.byPair, ← Option.map_or, ← Option.map_or]
    exact h.bind_get? hl fun c hc => mem_of_rival? hc
  simp only [Indexed.obtain?, hknown]
  rcases t.obtain?_cases rule pair d with ⟨c, hr, hi, he⟩ | ⟨c, hr, hi, he⟩ | ⟨hr, he⟩ <;>
    rw [he, hr]
  · simp only [hi, if_true]
    exact .obtained _ h
  · simp only [hi, if_false]
    exact .refused _
  · simp only [h.length_slots]
    exact .obtained _ (h.push hr d)

theorem Represents.anchor (h : x.Represents t) (hl : t.Listed) (rule : RuleName)
    (pair : Sided ElementId) (d : Direction) :
    Agree (x.anchor rule pair d) (t.anchor rule pair d) := by
  rw [Indexed.anchor, anchor_eq, h.anchor?_eq hl]
  cases ha : t.anchor? with
  | some c =>
    by_cases hi : c.Is rule pair
    · simp only [hi, if_true]
      exact .obtained _ h
    · simp only [hi, if_false]
      exact .refused _
  | none =>
    have hn : ∀ c ∈ t.entries, c.isAnchor = false :=
      fun c hc => by simpa using List.find?_eq_none.mp ha c hc
    have hagree := h.obtain? hl rule pair d
    rcases t.obtain?_cases rule pair d with ⟨c, hr, _, he⟩ | ⟨c, _, _, he⟩ | ⟨_, he⟩ <;>
      rw [he] at hagree ⊢
    · generalize x.obtain? rule pair d = answer at hagree
      cases hagree with
      | obtained o hx => exact .obtained _ (hx.mark hn (mem_of_rival? hr))
    · generalize x.obtain? rule pair d = answer at hagree
      cases hagree with
      | refused conflict => exact .refused _
    · generalize x.obtain? rule pair d = answer at hagree
      cases hagree with
      | obtained o hx =>
        refine .obtained _ (hx.mark (c := t.newEntry rule pair d) (fun c hc => ?_) ?_)
        · rcases List.mem_append.mp hc with hc | hc
          · exact hn c hc
          · rw [List.mem_singleton.mp hc]
            rfl
        · exact List.mem_append_right _ (List.mem_singleton_self _)

/-- Handles are dropped one by one; what is left are the entries with other handles. -/
theorem Represents.removeAll (h : x.Represents t) (hb : t.Bijective) {ids : List CorrespondenceId}
    (hn : ids.Nodup) :
    (x.removeAll ids).1 = ids.filterMap t.get? ∧
      (x.removeAll ids).2.Represents { t with entries := t.entries.filter (·.id ∉ ids) } := by
  induction ids generalizing x t with
  | nil =>
    have hall : t.entries.filter (·.id ∉ ([] : List CorrespondenceId)) = t.entries :=
      List.filter_eq_self.mpr fun c _ => by simp
    refine ⟨rfl, ?_⟩
    rw [hall]
    exact h
  | cons id ids ih =>
    obtain ⟨hnew, hrest⟩ := List.nodup_cons.mp hn
    obtain ⟨hdropped, hx⟩ := h.remove hb id
    have hb' : (t.remove id).Bijective := hb.sublist List.filter_sublist rfl
    obtain ⟨hcs, hleft⟩ := ih hx hb' hrest
    have hget : ∀ i ∈ ids, (t.remove id).get? i = t.get? i := by
      intro i hi
      have hne : i ≠ id := fun he => hnew (he ▸ hi)
      simp only [Correspondences.get?, Correspondences.remove, List.find?_filter]
      refine List.find?_congr fun c _ => ?_
      by_cases hc : c.id = i
      · simp [hc, hne]
      · simp [hc]
    have hentries :
        (t.remove id).entries.filter (·.id ∉ ids) = t.entries.filter (·.id ∉ id :: ids) := by
      simp only [Correspondences.remove, List.filter_filter]
      refine List.filter_congr fun c _ => ?_
      simp [Bool.and_comm]
    refine ⟨?_, ?_⟩
    · simp only [Indexed.removeAll, hdropped, hcs, List.filterMap_congr hget]
      cases hg : t.get? id <;> simp [hg]
    · rw [hentries] at hleft
      exact hleft

theorem Represents.release (h : x.Represents t) (hb : t.Bijective) (s : Side) (e : ElementId) :
    (x.release s e).1 = (t.release s e).1 ∧ (x.release s e).2.Represents (t.release s e).2 := by
  have hsub : (t.ofElement s e).Sublist t.entries := List.filter_sublist
  have hnodup : ((t.ofElement s e).map (·.id)).Nodup := by
    have hsorted := hb.listed.sorted.sublist hsub
    refine List.pairwise_map.mpr (hsorted.imp fun hlt he => ?_)
    rw [he] at hlt
    exact Nat.lt_irrefl _ hlt
  obtain ⟨hdropped, hleft⟩ := h.removeAll hb hnodup
  have hget : x.get? = t.get? := funext (h.get?_eq hb.listed)
  have hentries : t.entries.filter (·.id ∉ (t.ofElement s e).map (·.id)) =
      t.entries.filter (·.element s ≠ e) := by
    refine List.filter_congr fun c hc => ?_
    have hiff : c.id ∈ (t.ofElement s e).map (·.id) ↔ c.element s = e := by
      constructor
      · intro hid
        obtain ⟨a, hmem, hel, hac⟩ := Correspondences.mem_handles.mp hid
        rwa [← hb.listed.eq_of_id hmem hc hac]
      · intro hel
        exact Correspondences.mem_handles.mpr ⟨c, hc, hel, rfl⟩
    simp only [hiff, ne_eq]
  rw [Indexed.release, h.ofElement_eq]
  refine ⟨?_, ?_⟩
  · rw [hdropped, ← hget, h.filterMap_get? hb.listed hsub.subset]
    rfl
  · rw [hentries] at hleft
    exact hleft

/-- Both records answer a call alike, and are the same record afterwards. -/
theorem Represents.call (h : x.Represents t) (hb : t.Bijective) (c : Call) :
    (x.call c).1 = (t.call c).1 ∧ (x.call c).2.Represents (t.call c).2 := by
  have answered {a : Except PairConflict (Obtained × Indexed)}
      {b : Except PairConflict (Obtained × Correspondences)} (hab : Agree a b) :
      (answer x a).1 = (answer t b).1 ∧ (answer x a).2.Represents (answer t b).2 := by
    cases hab with
    | obtained o hx => exact ⟨rfl, hx⟩
    | refused c => exact ⟨rfl, h⟩
  cases c with
  | pair rule elements d => exact answered (h.obtain? hb.listed rule elements d)
  | root rule elements d => exact answered (h.anchor hb.listed rule elements d)
  | drop id =>
    obtain ⟨hdropped, hx⟩ := h.remove hb id
    exact ⟨by simp only [Indexed.call, Correspondences.call, hdropped], hx⟩
  | release s e =>
    obtain ⟨hdropped, hx⟩ := h.release hb s e
    exact ⟨by simp only [Indexed.call, Correspondences.call, hdropped], hx⟩
  | remember id binding values => exact ⟨rfl, h.recordShadow id binding values⟩

theorem Represents.callAll (h : x.Represents t) (hb : t.Bijective) (calls : List Call) :
    (x.callAll calls).Represents (t.callAll calls) ∧ (t.callAll calls).Bijective := by
  induction calls generalizing x t with
  | nil => exact ⟨h, hb⟩
  | cons c calls ih => exact ih (h.call hb c).2 (hb.call c)

/-- The handle that a call hands out leads to the pair asked for. -/
theorem Represents.get?_obtained (h : x.Represents t) (hb : t.Bijective) {rule : RuleName}
    {pair : Sided ElementId} {d : Direction} {c : Call}
    (hc : c = .pair rule pair d ∨ c = .root rule pair d) {o : Obtained}
    (ho : (x.call c).1 = .obtained o) :
    ∃ p, (x.call c).2.get? o.id = some p ∧ p.Is rule pair := by
  obtain ⟨hanswer, hx⟩ := h.call hb c
  have hb' := hb.call c
  rw [hanswer] at ho
  have hmem : ∃ p ∈ (t.call c).2.entries, p.id = o.id ∧ p.Is rule pair := by
    rcases hc with rfl | rfl
    · cases he : t.obtain? rule pair d with
      | error conflict => simp [Correspondences.call, he, answer] at ho
      | ok y =>
        obtain rfl : y.1 = o := by simpa [Correspondences.call, he, answer] using ho
        simpa [Correspondences.call, he, answer] using mem_of_obtain? he
    · cases he : t.anchor rule pair d with
      | error conflict => simp [Correspondences.call, he, answer] at ho
      | ok y =>
        obtain rfl : y.1 = o := by simpa [Correspondences.call, he, answer] using ho
        simpa [Correspondences.call, he, answer] using mem_of_anchor he
  obtain ⟨p, hp, hid, hi⟩ := hmem
  refine ⟨p, ?_, hi⟩
  rw [hx.get?_eq hb'.listed, ← hid]
  exact hb'.listed.get?_eq hp

/-- Every query is a linear scan of the live pairs. -/
structure Scans (x : Indexed) : Prop where
  get? : ∀ id, x.get? id = x.live.find? (·.id = id)
  lookup? : ∀ rule s e, x.lookup? rule s e = x.live.find? fun c => c.rule = rule ∧
    c.element s = e
  ofElement : ∀ s e, x.ofElement s e = (x.live.filter (·.element s = e)).map (·.id)
  partners : ∀ s e, x.partners s e = (x.live.filter (·.element s = e)).map (·.element s.other)
  ofRule : ∀ rule, x.ofRule rule = x.live.filter fun c => !c.isAnchor && c.rule = rule
  members : x.members = x.live.filter (!·.isAnchor)
  length : x.length = x.live.countP (!·.isAnchor)
  anchor? : x.anchor? = x.live.find? (·.isAnchor)

theorem Represents.scans (h : x.Represents t) (hl : t.Listed) : x.Scans where
  get? id := by
    rw [h.get?_eq hl, h.live]
    rfl
  lookup? rule s e := by
    rw [h.lookup?_eq hl, h.live]
    rfl
  ofElement s e := by
    rw [h.ofElement_eq, h.live]
    rfl
  partners s e := by
    rw [h.partners_eq hl, h.live]
    rfl
  ofRule rule := by
    rw [Indexed.ofRule, Indexed.members, List.filter_filter]
    refine List.filter_congr fun c _ => ?_
    rw [Bool.and_comm]
  members := rfl
  length := by rw [Indexed.length, Indexed.members, List.countP_eq_length_filter]
  anchor? := by
    rw [h.anchor?_eq hl, h.live]
    rfl

end Indexed

/-- After any sequence of calls, refused ones included, the indexed record holds the pairs that the
list of pairs holds, and answers any further call as that does. Its queries are linear scans of the
live pairs, which are listed by age; for each rule they are a partial bijection, no two elements are
paired twice, and at most one pair is that of the roots. A handle that is handed out denotes the
pair asked for; whatever is called for afterwards, a handle that was given out denotes the pair that
it denoted then, or none. -/
theorem indexed_callAll (calls : List Call) :
    let x := Indexed.callAll {} calls
    let t := callAll {} calls
    x.record = t ∧ (∀ c, (x.call c).1 = (t.call c).1) ∧ x.Scans ∧ x.record.Bijective ∧
      (∀ rule pair d c o, c = .pair rule pair d ∨ c = .root rule pair d →
        (x.call c).1 = .obtained o → ∃ p, (x.call c).2.get? o.id = some p ∧
          p.Is rule pair) ∧
      ∀ more id, id.index < x.slots.length → ∀ c', (x.callAll more).get? id = some c' →
        ∃ c, x.get? id = some c ∧ c'.Is c.rule c.elements := by
  intro x t
  obtain ⟨hx, hb⟩ := Indexed.Represents.empty.callAll .empty calls
  have hrecord : x.record = t := hx.record
  refine ⟨hrecord, fun c => (hx.call hb c).1, hx.scans hb.listed, hrecord ▸ hb,
    fun _ _ _ _ _ hc ho => hx.get?_obtained hb hc ho, ?_⟩
  intro more id hid c' hc'
  obtain ⟨hx', hb'⟩ := hx.callAll hb more
  have hages := Ages.callAll t more
  rw [hx'.get?_eq hb'.listed] at hc'
  have hmem : c' ∈ (t.callAll more).entries := List.mem_of_find?_eq_some hc'
  have hcid : c'.id = id := by simpa using List.find?_some hc'
  have hlt : c'.id.index < t.next := by rwa [hcid, ← hx.length_slots]
  obtain ⟨c, hc, hsame, hrule, hel⟩ := hages.origin c' hmem hlt
  refine ⟨c, ?_, hrule.symm, hel.symm⟩
  rw [hx.get?_eq hb.listed, ← hcid, ← hsame]
  exact hb.listed.get?_eq hc

end GraphSync.Correspondences
