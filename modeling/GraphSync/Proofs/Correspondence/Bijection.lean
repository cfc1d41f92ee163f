import GraphSync.Correspondence.Indexed
import GraphSync.Proofs.Correspondence.Entries

namespace GraphSync.Correspondences

variable {t t' t'' : Correspondences} {c : Correspondence} {rule : RuleName}
  {pair : Sided ElementId} {d : Direction}

theorem pairing?_eq_none (h : t.rival? rule pair = none) :
    ∀ c ∈ t.entries, c.elements ≠ pair := by
  obtain ⟨_, h⟩ := Option.or_eq_none_iff.mp h
  obtain ⟨_, h⟩ := Option.or_eq_none_iff.mp h
  intro c hc
  simpa using List.find?_eq_none.mp h c hc

/-- A pair is handed out, refused, or recorded as the last one. -/
theorem obtain?_cases (t : Correspondences) (rule : RuleName) (pair : Sided ElementId)
    (d : Direction) :
    (∃ c, t.rival? rule pair = some c ∧ c.Is rule pair ∧
      t.obtain? rule pair d = .ok (⟨c.id, false⟩, t)) ∨
    (∃ c, t.rival? rule pair = some c ∧ ¬ c.Is rule pair ∧
      t.obtain? rule pair d = .error ⟨rule, pair, c.elements⟩) ∨
    (t.rival? rule pair = none ∧ t.obtain? rule pair d =
      .ok (⟨⟨t.next⟩, true⟩,
        { entries := t.entries ++ [t.newEntry rule pair d], next := t.next + 1 })) := by
  cases hr : t.rival? rule pair with
  | none => exact .inr (.inr ⟨rfl, by simp [obtain?, hr, newEntry]⟩)
  | some c =>
    by_cases hi : c.Is rule pair
    · exact .inl ⟨c, rfl, hi, by simp [obtain?, hr, hi]⟩
    · exact .inr (.inl ⟨c, rfl, hi, by simp [obtain?, hr, hi]⟩)

/-- The roots are paired already, or their pair is requested like any other and marked. -/
theorem anchor_eq (t : Correspondences) (rule : RuleName) (pair : Sided ElementId) (d : Direction) :
    t.anchor rule pair d = match t.anchor? with
      | some c =>
        if c.Is rule pair then .ok (⟨c.id, false⟩, t) else .error ⟨rule, pair, c.elements⟩
      | none =>
        (t.obtain? rule pair d).map
          fun x => (x.1, x.2.modify x.1.id ({ · with isAnchor := true })) := by
  unfold anchor
  cases t.anchor? with
  | some c => rfl
  | none =>
    simp only [bind, Except.bind, Except.map]
    cases t.obtain? rule pair d <;> rfl

/-- The handle that is handed out is that of the pair asked for. -/
theorem mem_of_obtain? {o : Obtained} (he : t.obtain? rule pair d = .ok (o, t')) :
    ∃ c ∈ t'.entries, c.id = o.id ∧ c.Is rule pair := by
  rcases t.obtain?_cases rule pair d with ⟨c, hr, hi, heq⟩ | ⟨_, _, _, heq⟩ | ⟨_, heq⟩ <;>
    rw [heq] at he <;> cases he
  · exact ⟨c, mem_of_rival? hr, rfl, hi⟩
  · exact ⟨t.newEntry rule pair d, List.mem_append_right _ (List.mem_singleton_self _),
      rfl, rfl, rfl⟩

theorem mem_of_anchor {o : Obtained} (he : t.anchor rule pair d = .ok (o, t')) :
    ∃ c ∈ t'.entries, c.id = o.id ∧ c.Is rule pair := by
  rw [anchor_eq] at he
  cases ha : t.anchor? with
  | some c =>
    have hc : c ∈ t.entries := List.mem_of_find?_eq_some ha
    simp only [ha] at he
    split at he <;> cases he
    rename_i hi
    exact ⟨c, hc, rfl, hi⟩
  | none =>
    simp only [ha] at he
    cases ho : t.obtain? rule pair d with
    | error c =>
      rw [ho] at he
      cases he
    | ok x =>
      rw [ho] at he
      cases he
      obtain ⟨c, hc, hid, hi⟩ := mem_of_obtain? ho
      exact ⟨{ c with isAnchor := true }, List.mem_map.mpr ⟨c, hc, by simp [hid]⟩, hid, hi⟩

/-- Changing an entry leaves its handle, its rule and its elements. -/
def Preserving (f : Correspondence → Correspondence) : Prop :=
  ∀ c, (f c).id = c.id ∧ (f c).rule = c.rule ∧ (f c).elements = c.elements

theorem preserving_mark : Preserving ({ · with isAnchor := true }) := fun _ => ⟨rfl, rfl, rfl⟩

theorem preserving_remember (binding : Nat) (values : Shadow) :
    Preserving fun c => { c with shadows := c.shadows.insert binding values } :=
      fun _ => ⟨rfl, rfl, rfl⟩

namespace Keyed

variable {s : Side} {o : Obtained}

theorem subset (h : t.Keyed s) (hs : t'.entries ⊆ t.entries) : t'.Keyed s :=
  fun c hc c' hc' => h c (hs hc) c' (hs hc')

/-- A pair without a rival may be recorded. -/
theorem append (h : t.Keyed s) (hr : t.rival? rule pair = none) (d : Direction) :
    Keyed { entries := t.entries ++ [t.newEntry rule pair d], next := t.next + 1 } s := by
  have hkey := rival?_eq_none hr s
  intro c hc c' hc' hrule hel
  rcases List.mem_append.mp hc with hc | hc <;> rcases List.mem_append.mp hc' with hc' | hc'
  · exact h c hc c' hc' hrule hel
  · rw [List.mem_singleton.mp hc'] at hrule hel
    exact absurd hel (hkey c hc hrule)
  · rw [List.mem_singleton.mp hc] at hrule hel
    exact absurd hel.symm (hkey c' hc' hrule.symm)
  · rw [List.mem_singleton.mp hc, List.mem_singleton.mp hc']

theorem modify (h : t.Keyed s) {f : Correspondence → Correspondence} (hf : Preserving f)
    (id : CorrespondenceId) : (t.modify id f).Keyed s := by
  let g (c : Correspondence) : Correspondence := if c.id = id then f c else c
  have hg (c : Correspondence) : (g c).rule = c.rule ∧ (g c).element s = c.element s := by
    by_cases hi : c.id = id
    · simp [g, hi, Correspondence.element, hf c]
    · simp [g, hi]
  intro c hc c' hc' hrule hel
  obtain ⟨a, ham, rfl⟩ : ∃ a ∈ t.entries, g a = c := List.mem_map.mp hc
  obtain ⟨a', ham', rfl⟩ : ∃ a ∈ t.entries, g a = c' := List.mem_map.mp hc'
  rw [(hg a).1, (hg a').1] at hrule
  rw [(hg a).2, (hg a').2] at hel
  rw [h a ham a' ham' hrule hel]

theorem obtain? (h : t.Keyed s) (he : t.obtain? rule pair d = .ok (o, t')) : t'.Keyed s := by
  rcases t.obtain?_cases rule pair d with ⟨_, _, _, heq⟩ | ⟨_, _, _, heq⟩ | ⟨hr, heq⟩ <;>
    rw [heq] at he <;> cases he
  · exact h
  · exact h.append hr d

theorem anchor (h : t.Keyed s) (he : t.anchor rule pair d = .ok (o, t')) : t'.Keyed s := by
  rw [anchor_eq] at he
  cases ha : t.anchor? with
  | some c =>
    simp only [ha] at he
    split at he <;> cases he
    exact h
  | none =>
    simp only [ha] at he
    cases ho : t.obtain? rule pair d with
    | error c =>
      rw [ho] at he
      cases he
    | ok x =>
      rw [ho] at he
      cases he
      exact (h.obtain? ho).modify preserving_mark _

end Keyed

structure Bijective (t : Correspondences) : Prop where
  listed : t.Listed
  key_inj : ∀ s, ∀ c ∈ t.entries, ∀ c' ∈ t.entries, c.rule = c'.rule →
    c.element s = c'.element s → c = c'
  pair_inj : ∀ c ∈ t.entries, ∀ c' ∈ t.entries, c.elements = c'.elements → c = c'
  anchor_unique : ∀ c ∈ t.entries, ∀ c' ∈ t.entries, c.isAnchor = true →
    c'.isAnchor = true → c = c'

namespace Bijective

theorem empty : Bijective {} where
  listed := ⟨.nil, fun _ hc => by cases hc⟩
  key_inj _ _ hc := by cases hc
  pair_inj _ hc := by cases hc
  anchor_unique _ hc := by cases hc

theorem sublist (h : t.Bijective) (hs : t'.entries.Sublist t.entries) (hn : t'.next = t.next) :
    t'.Bijective where
  listed := h.listed.sublist hs hn
  key_inj s := Keyed.subset (h.key_inj s) hs.subset
  pair_inj c hc c' hc' := h.pair_inj c (hs.subset hc) c' (hs.subset hc')
  anchor_unique c hc c' hc' := h.anchor_unique c (hs.subset hc) c' (hs.subset hc')

/-- A pair without a rival may be recorded. -/
theorem append (h : t.Bijective) (hr : t.rival? rule pair = none) (d : Direction) :
    Bijective { entries := t.entries ++ [t.newEntry rule pair d], next := t.next + 1 } := by
  have hpair := pairing?_eq_none hr
  have all {P : Correspondence → Prop} (hp : ∀ a ∈ t.entries, P a)
      (hc : P (t.newEntry rule pair d)) : ∀ a ∈ t.entries ++ [t.newEntry rule pair d], P a := by
    intro a ha
    rcases List.mem_append.mp ha with ha | ha
    · exact hp a ha
    · exact List.mem_singleton.mp ha ▸ hc
  exact {
    listed := h.listed.append rfl
    key_inj := fun s => Keyed.append (h.key_inj s) hr d
    pair_inj := all (fun a ha => all (h.pair_inj a ha) fun e => absurd e (hpair a ha))
      (all (fun a ha e => absurd e.symm (hpair a ha)) fun _ => rfl)
    anchor_unique := all (fun a ha => all (h.anchor_unique a ha) fun _ hn => by cases hn)
      (all (fun a ha hn => by cases hn) fun _ _ => rfl) }

theorem modify (h : t.Bijective) {f : Correspondence → Correspondence} (hf : Preserving f)
    (id : CorrespondenceId)
    (ha : ∀ c ∈ (t.modify id f).entries, ∀ c' ∈ (t.modify id f).entries,
      c.isAnchor = true → c'.isAnchor = true → c = c') : (t.modify id f).Bijective := by
  let g (c : Correspondence) : Correspondence := if c.id = id then f c else c
  have hg (c : Correspondence) :
      (g c).id = c.id ∧ (g c).rule = c.rule ∧ (g c).elements = c.elements := by
    by_cases hi : c.id = id
    · simpa [g, hi] using hf c
    · simp [g, hi]
  have hmem {c : Correspondence} (hc : c ∈ (t.modify id f).entries) :
      ∃ a ∈ t.entries, g a = c :=
    List.mem_map.mp hc
  refine ⟨h.listed.map fun c => (hg c).1, fun s => Keyed.modify (h.key_inj s) hf id,
    fun c hc c' hc' hel => ?_, ha⟩
  obtain ⟨a, ham, rfl⟩ := hmem hc
  obtain ⟨a', ham', rfl⟩ := hmem hc'
  rw [(hg a).2.2, (hg a').2.2] at hel
  rw [h.pair_inj a ham a' ham' hel]

theorem recordShadow (h : t.Bijective) (id : CorrespondenceId) (binding : Nat) (values : Shadow) :
    (t.recordShadow id binding values).Bijective := by
  refine h.modify (preserving_remember binding values) id fun c hc c' hc' ha ha' => ?_
  obtain ⟨a, ham, rfl⟩ := List.mem_map.mp hc
  obtain ⟨a', ham', rfl⟩ := List.mem_map.mp hc'
  have hanchor (b : Correspondence) :
      (if b.id = id then { b with shadows := b.shadows.insert binding values }
      else b).isAnchor = b.isAnchor := by split <;> rfl
  rw [hanchor] at ha ha'
  rw [h.anchor_unique a ham a' ham' ha ha']

/-- One entry may be marked as the pair of the roots, if none is. -/
theorem mark (h : t.Bijective) (hn : ∀ c ∈ t.entries, c.isAnchor = false)
    (id : CorrespondenceId) : (t.modify id ({ · with isAnchor := true })).Bijective := by
  refine h.modify preserving_mark id fun c hc c' hc' ha ha' => ?_
  have marked {b : Correspondence} (hb : b ∈ t.entries)
      (hbm : (if b.id = id then { b with isAnchor := true } else b).isAnchor = true) :
      b.id = id := by
    by_contra hne
    rw [if_neg hne, hn b hb] at hbm
    cases hbm
  obtain ⟨a, ham, rfl⟩ := List.mem_map.mp hc
  obtain ⟨a', ham', rfl⟩ := List.mem_map.mp hc'
  have hid : a.id = a'.id := (marked ham ha).trans (marked ham' ha').symm
  rw [h.listed.eq_of_id ham ham' hid]

theorem obtain? (h : t.Bijective) {o : Obtained} (he : t.obtain? rule pair d = .ok (o, t')) :
    t'.Bijective := by
  rcases t.obtain?_cases rule pair d with ⟨_, _, _, heq⟩ | ⟨_, _, _, heq⟩ | ⟨hr, heq⟩ <;>
    rw [heq] at he <;> cases he
  · exact h
  · exact h.append hr d

theorem anchor (h : t.Bijective) {o : Obtained} (he : t.anchor rule pair d = .ok (o, t')) :
    t'.Bijective := by
  rw [anchor_eq] at he
  cases ha : t.anchor? with
  | some c =>
    simp only [ha] at he
    split at he <;> cases he
    exact h
  | none =>
    have hn : ∀ c ∈ t.entries, c.isAnchor = false :=
      fun c hc => by simpa using List.find?_eq_none.mp ha c hc
    simp only [ha] at he
    rcases t.obtain?_cases rule pair d with ⟨_, _, _, heq⟩ | ⟨_, _, _, heq⟩ | ⟨hr, heq⟩ <;>
      rw [heq] at he <;> cases he
    · exact h.mark hn _
    · refine (h.append hr d).mark (fun c hc => ?_) _
      rcases List.mem_append.mp hc with hc | hc
      · exact hn c hc
      · rw [List.mem_singleton.mp hc]
        rfl

theorem call (h : t.Bijective) (x : Call) : (t.call x).2.Bijective := by
  cases x with
  | pair rule elements d =>
    cases he : t.obtain? rule elements d with
    | error c => simpa [Correspondences.call, he, answer] using h
    | ok x => simpa [Correspondences.call, he, answer] using h.obtain? he
  | root rule elements d =>
    cases he : t.anchor rule elements d with
    | error c => simpa [Correspondences.call, he, answer] using h
    | ok x => simpa [Correspondences.call, he, answer] using h.anchor he
  | drop id => exact h.sublist List.filter_sublist rfl
  | release s e => exact h.sublist List.filter_sublist rfl
  | remember id binding values => exact h.recordShadow id binding values

end Bijective

/-- A handle that `t` has given out denotes in `t'` what it did in `t`, or nothing. -/
structure Ages (t t' : Correspondences) : Prop where
  next_le : t.next ≤ t'.next
  origin : ∀ c' ∈ t'.entries, c'.id.index < t.next → ∃ c ∈ t.entries, c.id = c'.id ∧
    c.Is c'.rule c'.elements

namespace Ages

theorem refl (t : Correspondences) : t.Ages t :=
  ⟨Nat.le_refl _, fun c hc _ => ⟨c, hc, rfl, rfl, rfl⟩⟩

theorem trans (h : t.Ages t') (h' : t'.Ages t'') : t.Ages t'' := by
  refine ⟨Nat.le_trans h.next_le h'.next_le, fun c'' hc'' hlt => ?_⟩
  obtain ⟨c', hc', hid', hrule', hel'⟩ := h'.origin c'' hc'' (Nat.lt_of_lt_of_le hlt h.next_le)
  obtain ⟨c, hc, hid, hrule, hel⟩ := h.origin c' hc' (hid' ▸ hlt)
  exact ⟨c, hc, hid.trans hid', hrule.trans hrule', hel.trans hel'⟩

theorem subset (hs : t'.entries ⊆ t.entries) (hn : t'.next = t.next) : t.Ages t' :=
  ⟨Nat.le_of_eq hn.symm, fun c hc _ => ⟨c, hs hc, rfl, rfl, rfl⟩⟩

theorem modify {f : Correspondence → Correspondence} (hf : Preserving f) (id : CorrespondenceId) :
    t.Ages (t.modify id f) := by
  refine ⟨Nat.le_refl _, fun c hc _ => ?_⟩
  obtain ⟨a, ha, rfl⟩ := List.mem_map.mp hc
  obtain ⟨hid, hrule, hel⟩ := hf a
  by_cases hi : a.id = id
  · exact ⟨a, ha, by simp [hi, hid], by simp [hi, Correspondence.Is, hrule, hel]⟩
  · exact ⟨a, ha, by simp [hi], by simp [hi, Correspondence.Is]⟩

theorem obtain? {o : Obtained} (he : t.obtain? rule pair d = .ok (o, t')) : t.Ages t' := by
  rcases t.obtain?_cases rule pair d with ⟨_, _, _, heq⟩ | ⟨_, _, _, heq⟩ | ⟨_, heq⟩ <;>
    rw [heq] at he <;> cases he
  · exact .refl t
  · refine ⟨Nat.le_succ _, fun c hc hlt => ?_⟩
    rcases List.mem_append.mp hc with hc | hc
    · exact ⟨c, hc, rfl, rfl, rfl⟩
    · rw [List.mem_singleton.mp hc] at hlt
      exact absurd hlt (Nat.lt_irrefl _)

theorem anchor {o : Obtained} (he : t.anchor rule pair d = .ok (o, t')) : t.Ages t' := by
  rw [anchor_eq] at he
  cases ha : t.anchor? with
  | some c =>
    simp only [ha] at he
    split at he <;> cases he
    exact .refl t
  | none =>
    simp only [ha] at he
    cases ho : t.obtain? rule pair d with
    | error c =>
      rw [ho] at he
      cases he
    | ok x =>
      rw [ho] at he
      cases he
      exact (Ages.obtain? ho).trans (.modify preserving_mark _)

theorem call (t : Correspondences) (x : Call) : t.Ages (t.call x).2 := by
  cases x with
  | pair rule elements d =>
    cases he : t.obtain? rule elements d with
    | error c => simpa [Correspondences.call, he, answer] using Ages.refl t
    | ok x => simpa [Correspondences.call, he, answer] using Ages.obtain? he
  | root rule elements d =>
    cases he : t.anchor rule elements d with
    | error c => simpa [Correspondences.call, he, answer] using Ages.refl t
    | ok x => simpa [Correspondences.call, he, answer] using Ages.anchor he
  | drop id => exact .subset (List.filter_subset_self _) rfl
  | release s e => exact .subset (List.filter_subset_self _) rfl
  | remember id binding values => exact .modify (preserving_remember binding values) id

theorem callAll (t : Correspondences) (calls : List Call) : t.Ages (t.callAll calls) := by
  induction calls generalizing t with
  | nil => exact .refl t
  | cons x calls ih => exact (Ages.call t x).trans (ih (t.call x).2)

end Ages

end GraphSync.Correspondences
