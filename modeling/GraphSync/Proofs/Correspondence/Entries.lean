import GraphSync.Correspondence.Basic

namespace GraphSync

/-- An entry without its memory of values. -/
def Correspondence.core (c : Correspondence) : Correspondence := { c with shadows := ∅ }

namespace Correspondence

variable {c c' : Correspondence}

theorem id_eq_of_core (h : c'.core = c.core) : c'.id = c.id := (congrArg Correspondence.id h :)

theorem rule_eq_of_core (h : c'.core = c.core) : c'.rule = c.rule :=
  (congrArg Correspondence.rule h :)

theorem elements_eq_of_core (h : c'.core = c.core) : c'.elements = c.elements :=
  (congrArg Correspondence.elements h :)

theorem element_eq_of_core (h : c'.core = c.core) (s : Side) : c'.element s = c.element s :=
  congrArg (·.elements.on s) h

theorem isAnchor_eq_of_core (h : c'.core = c.core) : c'.isAnchor = c.isAnchor :=
  (congrArg Correspondence.isAnchor h :)

end Correspondence

namespace Correspondences

/-- Entries are listed by increasing handle, below the next one. -/
structure Listed (t : Correspondences) : Prop where
  sorted : t.entries.Pairwise fun a b => a.id.index < b.id.index
  bounded : ∀ c ∈ t.entries, c.id.index < t.next

theorem find?_oldest {l : List Correspondence} (h : l.Pairwise fun a b => a.id.index < b.id.index)
    {p : Correspondence → Bool} {c : Correspondence} (hc : l.find? p = some c) :
    c ∈ l ∧ p c = true ∧ ∀ c' ∈ l, p c' = true → c.id.index ≤ c'.id.index := by
  induction l with
  | nil => simp at hc
  | cons a l ih =>
    obtain ⟨ha, hl⟩ := List.pairwise_cons.mp h
    by_cases hp : p a = true
    · rw [List.find?_cons_of_pos hp] at hc
      cases hc
      refine ⟨List.mem_cons_self, hp, ?_⟩
      intro c' hc' _
      rcases List.mem_cons.mp hc' with rfl | hc'
      · exact Nat.le_refl _
      · exact Nat.le_of_lt (ha c' hc')
    · rw [List.find?_cons_of_neg hp] at hc
      obtain ⟨hm, hpc, hmin⟩ := ih hl hc
      refine ⟨List.mem_cons_of_mem _ hm, hpc, ?_⟩
      intro c' hc' hp'
      rcases List.mem_cons.mp hc' with rfl | hc'
      · exact absurd hp' hp
      · exact hmin c' hc' hp'

namespace Listed

variable {t : Correspondences} {c c' : Correspondence}

theorem entries_nodup (h : t.Listed) : t.entries.Nodup :=
  h.sorted.imp fun hlt he => by simp [he] at hlt

theorem eq_of_id (h : t.Listed) (hc : c ∈ t.entries) (hc' : c' ∈ t.entries)
    (hi : c.id = c'.id) : c = c' := by
  have hp := h.sorted
  have hn := congrArg CorrespondenceId.index hi
  generalize t.entries = l at hc hc' hp
  induction l with
  | nil => simp at hc
  | cons a l ih =>
    obtain ⟨ha, hl⟩ := List.pairwise_cons.mp hp
    rcases List.mem_cons.mp hc with e | hc <;> rcases List.mem_cons.mp hc' with e' | hc'
    · rw [e, e']
    · have := e ▸ ha c' hc'
      omega
    · have := e' ▸ ha c hc
      omega
    · exact ih hc hc' hl

theorem get?_eq (h : t.Listed) (hc : c ∈ t.entries) : t.get? c.id = some c := by
  cases hg : t.get? c.id with
  | none => simpa using List.find?_eq_none.mp hg c hc
  | some c' =>
    have hi : c'.id = c.id := by simpa using List.find?_some hg
    rw [h.eq_of_id (List.mem_of_find?_eq_some hg) hc hi]

/-- A handle that was not given out stands for nothing. -/
theorem get?_of_le (h : t.Listed) {id : CorrespondenceId} (hi : t.next ≤ id.index) :
    t.get? id = none := by
  refine List.find?_eq_none.mpr fun c hc he => ?_
  have hlt := h.bounded c hc
  rw [of_decide_eq_true he] at hlt
  exact Nat.not_lt_of_le hi hlt

theorem sublist (h : t.Listed) {t' : Correspondences} (hs : t'.entries.Sublist t.entries)
    (hn : t'.next = t.next) : t'.Listed :=
  ⟨h.sorted.sublist hs, fun c hc => hn ▸ h.bounded c (hs.subset hc)⟩

/-- Changing entries without touching handles keeps the list. -/
theorem map (h : t.Listed) {f : Correspondence → Correspondence} (hf : ∀ c, (f c).id = c.id) :
    Listed { t with entries := t.entries.map f } := by
  refine ⟨List.pairwise_map.mpr ?_, ?_⟩
  · exact h.sorted.imp fun hab => by rwa [hf, hf]
  · intro c hc
    obtain ⟨a, ha, rfl⟩ := List.mem_map.mp hc
    rw [hf]
    exact h.bounded a ha

theorem append (h : t.Listed) (hc : c.id = ⟨t.next⟩) :
    Listed { entries := t.entries ++ [c], next := t.next + 1 } := by
  refine ⟨List.pairwise_append.mpr ⟨h.sorted, List.pairwise_singleton _ _, ?_⟩, ?_⟩
  · intro a ha b hb
    rw [List.mem_singleton.mp hb, hc]
    exact h.bounded a ha
  · intro a ha
    rcases List.mem_append.mp ha with ha | ha
    · exact Nat.lt_succ_of_lt (h.bounded a ha)
    · rw [List.mem_singleton.mp ha, hc]
      exact Nat.lt_succ_self _

end Listed

theorem mem_partners {t : Correspondences} {s : Side} {x y : ElementId} :
    y ∈ t.partners s x ↔ ∃ c ∈ t.entries, c.element s = x ∧ c.element s.other = y := by
  simp [partners, ofElement, and_assoc]

theorem mem_handles {t : Correspondences} {s : Side} {x : ElementId} {id : CorrespondenceId} :
    id ∈ (t.ofElement s x).map (·.id) ↔ ∃ c ∈ t.entries, c.element s = x ∧
      c.id = id := by
  simp [ofElement, and_assoc]

theorem mem_recordShadow {t : Correspondences} {id : CorrespondenceId} {binding : Nat}
    {values : Shadow} {c : Correspondence} (hc : c ∈ (t.recordShadow id binding values).entries) :
    ∃ a ∈ t.entries, c.core = a.core ∧ (a.id ≠ id → c = a) ∧
      (a.id = id → c = { a with shadows := a.shadows.insert binding values }) := by
  obtain ⟨a, ha, rfl⟩ := List.mem_map.mp hc
  by_cases hi : a.id = id
  · exact ⟨a, ha, by simp [hi, Correspondence.core], fun hn => absurd hi hn,
      fun _ => by simp [hi]⟩
  · exact ⟨a, ha, by simp [hi], fun _ => by simp [hi], fun he => absurd he hi⟩

/-- The entry of a pair after values were remembered for one of its bindings. -/
theorem Listed.of_recordShadow {t : Correspondences} {index : Nat} {values : Shadow}
    {c c' : Correspondence} (h : t.Listed) (hc : c ∈ t.entries)
    (hc' : c' ∈ (t.recordShadow c.id index values).entries) (hid : c'.id = c.id) :
    c'.core = c.core ∧ c'.shadow? index = some values ∧ ∀ i, i ≠ index →
      c'.shadow? i = c.shadow? i := by
  obtain ⟨a, ha, hcore, _, he⟩ := mem_recordShadow hc'
  obtain rfl := h.eq_of_id ha hc ((Correspondence.id_eq_of_core hcore).symm.trans hid)
  rw [he rfl]
  exact ⟨rfl, Dict.get?_insert_self _ _ _, fun i hi => Dict.get?_insert_of_ne _ _ hi⟩

/-- Values that are remembered already change nothing. -/
theorem recordShadow_eq_self {t : Correspondences} {id : CorrespondenceId} {binding : Nat}
    {values : Shadow} (h : ∀ c ∈ t.entries, c.id = id → c.shadow? binding = some values) :
    t.recordShadow id binding values = t := by
  have hmap : t.entries.map
      (fun c => if c.id = id then { c with shadows := c.shadows.insert binding values } else c) =
      t.entries := by
    refine (List.map_congr_left (g := fun c => c) ?_).trans (List.map_id' _)
    intro c hc
    split
    · rename_i hi
      rw [Dict.insert_eq_self (h c hc hi)]
    · rfl
  simp only [recordShadow, modify, hmap]

theorem exists_mem_recordShadow {t : Correspondences} (id : CorrespondenceId) (binding : Nat)
    (values : Shadow) {a : Correspondence} (ha : a ∈ t.entries) :
    ∃ c ∈ (t.recordShadow id binding values).entries, c.core = a.core ∧
      (a.id ≠ id → c = a) := by
  refine ⟨_, List.mem_map.mpr ⟨a, ha, rfl⟩, ?_, ?_⟩
  · by_cases hi : a.id = id <;> simp [hi, Correspondence.core]
  · intro hn
    simp [hn]

/-- The entry that remembers the values. -/
theorem mem_recordShadow_self {t : Correspondences} (binding : Nat) (values : Shadow)
    {a : Correspondence} (ha : a ∈ t.entries) :
    { a with shadows := a.shadows.insert binding values } ∈
      (t.recordShadow a.id binding values).entries :=
  List.mem_map.mpr ⟨a, ha, by simp⟩

/-- The entry of a pair that is recorded for the first time. -/
def newEntry (t : Correspondences) (rule : RuleName) (pair : Sided ElementId) (d : Direction) :
    Correspondence :=
  { id := ⟨t.next⟩, rule, elements := pair, createdIn := d }

/-- The entry of the two roots when it is recorded for the first time. -/
def anchorEntry (t : Correspondences) (rule : RuleName) (pair : Sided ElementId) (d : Direction) :
    Correspondence :=
  { t.newEntry rule pair d with isAnchor := true }

@[simp] theorem element_newEntry (t : Correspondences) (rule : RuleName) (pair : Sided ElementId)
    (d : Direction) (s : Side) : (t.newEntry rule pair d).element s = pair.on s := rfl

@[simp] theorem element_anchorEntry (t : Correspondences) (rule : RuleName) (pair : Sided ElementId)
    (d : Direction) (s : Side) : (t.anchorEntry rule pair d).element s = pair.on s := rfl

/-- The record without the entry of an element under a rule. -/
def without (t : Correspondences) (rule : RuleName) (s : Side) (e : ElementId) : Correspondences :=
  match t.lookup? rule s e with
  | some c => t.remove c.id
  | none => t

theorem without_sublist (t : Correspondences) (rule : RuleName) (s : Side) (x : ElementId) :
    (t.without rule s x).entries.Sublist t.entries ∧ (t.without rule s x).next = t.next := by
  unfold without
  split
  · exact ⟨List.filter_sublist, rfl⟩
  · exact ⟨.refl _, rfl⟩

theorem of_lookup?_eq_some {t : Correspondences} {rule : RuleName} {s : Side} {x : ElementId}
    {c : Correspondence} (hl : t.lookup? rule s x = some c) :
    c ∈ t.entries ∧ c.rule = rule ∧ c.element s = x :=
  ⟨List.mem_of_find?_eq_some hl, by simpa using List.find?_some hl⟩

theorem lookup?_eq_none {t : Correspondences} {rule : RuleName} {s : Side} {x : ElementId}
    (hn : ∀ c ∈ t.entries, c.rule = rule → c.element s ≠ x) :
    t.lookup? rule s x = none := by
  apply List.find?_eq_none.mpr
  intro c hc
  simpa using hn c hc

/-- On that side a rule and an element name one entry at most. -/
def Keyed (t : Correspondences) (s : Side) : Prop :=
  ∀ c ∈ t.entries, ∀ c' ∈ t.entries, c.rule = c'.rule →
    c.element s = c'.element s → c = c'

theorem Keyed.lookup?_eq {t : Correspondences} {s : Side} {c : Correspondence} (h : t.Keyed s)
    (hc : c ∈ t.entries) : t.lookup? c.rule s (c.element s) = some c := by
  cases hl : t.lookup? c.rule s (c.element s) with
  | none =>
    have hn := List.find?_eq_none.mp hl c hc
    simp at hn
  | some c' =>
    obtain ⟨hm, hr, he⟩ := of_lookup?_eq_some hl
    rw [h c' hm c hc hr he]

/-- Asking for a recorded pair under its rule hands it out. -/
theorem Keyed.obtain?_recorded {t : Correspondences} {c : Correspondence} (h : t.Keyed .left)
    (hc : c ∈ t.entries) (d : Direction) :
    t.obtain? c.rule c.elements d = .ok (⟨c.id, false⟩, t) := by
  have hl : t.lookup? c.rule .left c.elements.left = some c := h.lookup?_eq hc
  have hr : t.rival? c.rule c.elements = some c := by simp [rival?, hl]
  simp [obtain?, hr, Correspondence.Is]

theorem Keyed.mem_without {t : Correspondences} {s : Side} {c : Correspondence} {rule : RuleName}
    {x : ElementId} (h : t.Keyed s) (hl : t.Listed) :
    c ∈ (t.without rule s x).entries ↔ c ∈ t.entries ∧
      ¬ (c.rule = rule ∧ c.element s = x) := by
  unfold without
  cases hfound : t.lookup? rule s x with
  | none =>
    constructor
    · intro hc
      exact ⟨hc, by simpa using List.find?_eq_none.mp hfound c hc⟩
    · intro hc
      exact hc.1
  | some stale =>
    obtain ⟨hm, hr, he⟩ := of_lookup?_eq_some hfound
    simp only [remove, List.mem_filter, decide_eq_true_eq]
    apply and_congr_right
    intro hc
    apply not_congr
    constructor
    · intro hi
      rw [hl.eq_of_id hc hm hi]
      exact ⟨hr, he⟩
    · intro hk
      rw [h c hc stale hm (hk.1.trans hr.symm) (hk.2.trans he.symm)]

theorem mem_of_rival? {t : Correspondences} {rule : RuleName} {p : Sided ElementId}
    {c : Correspondence} (h : t.rival? rule p = some c) : c ∈ t.entries := by
  rcases Option.or_eq_some_iff.mp h with h | ⟨_, h⟩
  · exact List.mem_of_find?_eq_some h
  · rcases Option.or_eq_some_iff.mp h with h | ⟨_, h⟩
    · exact List.mem_of_find?_eq_some h
    · exact List.mem_of_find?_eq_some h

/-- A pair without a rival shares no rule and element with a recorded one. -/
theorem rival?_eq_none {t : Correspondences} {rule : RuleName} {p : Sided ElementId}
    (h : t.rival? rule p = none) (s : Side) (c : Correspondence) (hc : c ∈ t.entries)
    (hr : c.rule = rule) : c.element s ≠ p.on s := by
  obtain ⟨hl, h⟩ := Option.or_eq_none_iff.mp h
  obtain ⟨hr', _⟩ := Option.or_eq_none_iff.mp h
  cases s
  · simpa [hr, Sided.on] using List.find?_eq_none.mp hl c hc
  · simpa [hr, Sided.on] using List.find?_eq_none.mp hr' c hc

/-- A pair is recorded if one element takes part in none, and the other one has none under the
rule. -/
theorem obtain?_new {t : Correspondences} {rule : RuleName} {p : Sided ElementId} {s : Side}
    (hs : ∀ c ∈ t.entries, c.rule = rule → c.element s ≠ p.on s)
    (ht : ∀ c ∈ t.entries, c.element s.other ≠ p.on s.other) (d : Direction) :
    t.obtain? rule p d =
      .ok (⟨⟨t.next⟩, true⟩,
        { entries := t.entries ++ [t.newEntry rule p d], next := t.next + 1 }) := by
  have hl (u : Side) : t.lookup? rule u (p.on u) = none := by
    apply lookup?_eq_none
    intro c hc hr
    rcases s.eq_or_eq_other u with rfl | rfl
    · exact hs c hc hr
    · exact ht c hc
  have hp : t.pairing? p = none := by
    apply List.find?_eq_none.mpr
    intro c hc
    simpa using fun e : c.elements = p => ht c hc (congrArg (·.on s.other) e)
  have hr : t.rival? rule p = none := by
    have h₁ : t.lookup? rule .left p.left = none := hl .left
    have h₂ : t.lookup? rule .right p.right = none := hl .right
    simp [rival?, h₁, h₂, hp]
  simp [obtain?, hr, newEntry]

/-- `t'` is `t` but for what one entry remembers. -/
structure Touches (t t' : Correspondences) (id : CorrespondenceId) : Prop where
  next : t'.next = t.next
  old : ∀ c' ∈ t'.entries, ∃ c ∈ t.entries, c'.core = c.core ∧ (c.id ≠ id → c' = c)
  kept : ∀ c ∈ t.entries, ∃ c' ∈ t'.entries, c'.core = c.core
  members : t'.members.length = t.members.length

theorem Touches.refl (t : Correspondences) (id : CorrespondenceId) : t.Touches t id :=
  ⟨rfl, fun c hc => ⟨c, hc, rfl, fun _ => rfl⟩, fun c hc => ⟨c, hc, rfl⟩, rfl⟩

theorem Touches.recordShadow (t : Correspondences) (id : CorrespondenceId) (binding : Nat)
    (values : Shadow) : t.Touches (t.recordShadow id binding values) id where
  next := rfl
  old c hc := by
    obtain ⟨a, ha, he, hs, _⟩ := mem_recordShadow hc
    exact ⟨a, ha, he, hs⟩
  kept c hc := by
    obtain ⟨c', hc', he, _⟩ := exists_mem_recordShadow id binding values hc
    exact ⟨c', hc', he⟩
  members := by
    have hp : ((fun c : Correspondence => !c.isAnchor) ∘ fun c =>
        if c.id = id then { c with shadows := c.shadows.insert binding values } else c) =
        fun c => !c.isAnchor := by
      funext c
      by_cases hi : c.id = id <;> simp [hi]
    simp [Correspondences.members, Correspondences.recordShadow, Correspondences.modify,
      List.filter_map, hp]

end Correspondences

end GraphSync
