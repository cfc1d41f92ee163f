import GraphSync.Proofs.Correspondence.Entries
import GraphSync.Walk.Child

namespace GraphSync.Correspondences

/-- A pair of `member`, other than that of the roots, whose other element is live. -/
structure Candidate (t : Correspondences) (auth : Side) (following : Graph) (member : ElementId)
    (c : Correspondence) : Prop where
  mem : c ∈ t.entries
  inner : c.isAnchor = false
  of_member : c.element auth = member
  live : following.contains (c.element auth.other) = true

variable {t : Correspondences} {rules : RuleSet} {child : Child} {auth : Side} {following : Graph}
  {present : List ElementId} {member : ElementId} {c : Correspondence}

private theorem mem_live : c ∈ ((t.ofElement auth member).filter fun c =>
    !c.isAnchor && following.contains (c.element auth.other)) ↔
      t.Candidate auth following member c := by
  constructor
  · intro h
    obtain ⟨hm, hl⟩ := List.mem_filter.mp h
    obtain ⟨he, hs⟩ := List.mem_filter.mp hm
    simp only [Bool.and_eq_true, Bool.not_eq_true'] at hl
    exact ⟨he, hl.1, by simpa using hs, hl.2⟩
  · intro h
    refine List.mem_filter.mpr ⟨List.mem_filter.mpr ⟨h.mem, by simpa using h.of_member⟩, ?_⟩
    simp [h.inner, h.live]

/-- The oldest candidate in the following role is found, else one of the declared type. -/
theorem of_counterpart?_eq_some (h : t.Listed)
    (hc : t.counterpart? rules child auth following present member = some c) :
    t.Candidate auth following member c ∧
      ((c.element auth.other ∈ present ∧ ∀ c', t.Candidate auth following member c' →
          c'.element auth.other ∈ present → c.id.index ≤ c'.id.index) ∨
        ((∀ c', t.Candidate auth following member c' → c'.element auth.other ∉ present) ∧
          ∃ r, rules.rule? c.rule = some r ∧
            r.types.on auth.other = child.types.on auth.other)) := by
  have hp : ((t.ofElement auth member).filter fun c =>
      !c.isAnchor && following.contains (c.element auth.other)).Pairwise
        fun a b => a.id.index < b.id.index := (h.sorted.filter _).filter _
  rcases Option.or_eq_some_iff.mp hc with hf | ⟨hn, hf⟩
  · obtain ⟨hm, hp, hmin⟩ := find?_oldest hp hf
    refine ⟨mem_live.mp hm, .inl ⟨by simpa using hp, ?_⟩⟩
    intro c' h' hc'
    exact hmin c' (mem_live.mpr h') (by simpa using hc')
  · have hm := List.mem_of_find?_eq_some hf
    have ht := List.find?_some hf
    refine ⟨mem_live.mp hm, .inr ⟨?_, ?_⟩⟩
    · intro c' h'
      simpa using List.find?_eq_none.mp hn c' (mem_live.mpr h')
    · cases hr : rules.rule? c.rule with
      | none => simp [hr] at ht
      | some r => exact ⟨r, rfl, by simpa [hr] using ht⟩

theorem of_counterpart?_eq_none
    (hc : t.counterpart? rules child auth following present member = none)
    (h : t.Candidate auth following member c) :
    c.element auth.other ∉ present ∧
      ∀ r, rules.rule? c.rule = some r →
        r.types.on auth.other ≠ child.types.on auth.other := by
  obtain ⟨hp, ht⟩ := Option.or_eq_none_iff.mp hc
  have hm := mem_live.mpr h
  constructor
  · simpa using List.find?_eq_none.mp hp c hm
  · intro r hr he
    have hfits := List.find?_eq_none.mp ht c hm
    simp [hr, he] at hfits

/-- The oldest candidate in the following role is the one that is found. -/
theorem counterpart?_eq_some (h : t.Listed) (hc : t.Candidate auth following member c)
    (hp : c.element auth.other ∈ present)
    (hmin : ∀ c', t.Candidate auth following member c' → c'.element auth.other ∈ present →
      c.id.index ≤ c'.id.index) :
    t.counterpart? rules child auth following present member = some c := by
  cases hf : t.counterpart? rules child auth following present member with
  | none => exact absurd hp (of_counterpart?_eq_none hf hc).1
  | some c' =>
    obtain ⟨hc', ⟨hp', hmin'⟩ | ⟨hn, _⟩⟩ := of_counterpart?_eq_some h hf
    · have hi : c'.id.index = c.id.index := Nat.le_antisymm (hmin' c hc hp) (hmin c' hc' hp')
      rw [h.eq_of_id hc'.mem hc.mem (congrArg CorrespondenceId.mk hi)]
    · exact absurd hp (hn c hc)

theorem position?_lt {i : Nat} (h : t.position? auth present member = some i) :
    i < present.length := by
  obtain ⟨p, _, hp⟩ := List.exists_of_findSome?_eq_some h
  exact (List.idxOf?_eq_some_iff.mp hp).1

theorem slot_le (t : Correspondences) (auth : Side) (present earlier later : List ElementId) :
    t.slot auth present earlier later ≤ present.length := by
  unfold slot
  cases he : earlier.findSome? (t.position? auth present) with
  | some i =>
    obtain ⟨m, _, hm⟩ := List.exists_of_findSome?_eq_some he
    exact position?_lt hm
  | none =>
    cases hl : later.findSome? (t.position? auth present) with
    | some i =>
      obtain ⟨m, _, hm⟩ := List.exists_of_findSome?_eq_some hl
      exact Nat.le_of_lt (position?_lt hm)
    | none => exact Nat.le_refl _

/-- A role with a counterpart in it: where it stands, or else in its slot. -/
def placed (t : Correspondences) (auth : Side) (present earlier later : List ElementId)
    (y : ElementId) : List ElementId :=
  if y ∈ present then present else present.insertIdx (t.slot auth present earlier later) y

theorem mem_placed {earlier later : List ElementId} {y z : ElementId} :
    z ∈ t.placed auth present earlier later y ↔ z = y ∨ z ∈ present := by
  unfold placed
  split
  · rename_i hy
    exact ⟨.inr, fun hz => hz.elim (fun e => e ▸ hy) id⟩
  · exact List.mem_insertIdx (t.slot_le auth present earlier later)

/-- The only partner that an element has in a list stands where the list says. -/
theorem position?_eq {i : Nat} {y : ElementId} (hi : present.idxOf? y = some i)
    (hy : y ∈ t.partners auth member)
    (hu : ∀ y' ∈ t.partners auth member, y' ∈ present → y' = y) :
    t.position? auth present member = some i := by
  cases hp : t.position? auth present member with
  | none =>
    have hn := List.findSome?_eq_none_iff.mp hp y hy
    rw [hi] at hn
    cases hn
  | some j =>
    obtain ⟨y', hy', hj⟩ := List.exists_of_findSome?_eq_some hp
    have hm : y' ∈ present := List.isSome_idxOf?.mp (by rw [hj]; rfl)
    rw [hu y' hy' hm, hi] at hj
    exact hj.symm

theorem idxOf?_last {init : List ElementId} {y : ElementId} (hy : y ∉ init) :
    (init ++ [y]).idxOf? y = some init.length := by
  refine List.idxOf?_eq_some_iff.mpr ⟨by simp, by simp, fun j hj he => ?_⟩
  rw [List.getElem_append_left hj] at he
  exact hy (he ▸ List.getElem_mem hj)

/-- While the counterparts of the earlier members fill the role in order, the next one goes to the
end. -/
theorem slot_eq_length {earlier later : List ElementId} (hnil : earlier = [] → present = [])
    (hcons : ∀ m rest, earlier = m :: rest →
      t.position? auth present m = some (present.length - 1) ∧
      present ≠ []) : t.slot auth present earlier later = present.length := by
  unfold slot
  cases earlier with
  | nil =>
    rw [hnil rfl]
    cases hl : later.findSome? (t.position? auth []) with
    | none => rfl
    | some i =>
      obtain ⟨m, _, hm⟩ := List.exists_of_findSome?_eq_some hl
      exact absurd (position?_lt hm) (Nat.not_lt_zero i)
  | cons m rest =>
    obtain ⟨hp, hne⟩ := hcons m rest rfl
    have hpos := List.length_pos_iff.mpr hne
    simp only [List.findSome?_cons, hp]
    omega

end GraphSync.Correspondences
