import GraphSync.Proofs.Correspondence.OneWay
import GraphSync.Proofs.Rule.Search
import GraphSync.Walk.Binding

namespace GraphSync

/-- Values of which one came from the other, or which agree as they are. -/
def Binding.Agreed (b : Binding) (values : Sided Value) : Prop :=
  b.inStep values = true ∨ ∃ s : Side, values.on s.other = b.convert s.other (values.on s)

theorem Binding.agreed_copied (b : Binding) (values : Sided Value) (source : Side) :
    b.Agreed (b.copied values source) := by
  refine .inr ⟨source, ?_⟩
  rw [copied, Sided.on_put_self, Sided.on_put_of_ne _ _ source.ne_other]

/-- What never changes in a session. -/
structure Scheme where
  rules : RuleSet
  rootRule : RuleName

def OneWay.scheme (k : OneWay) : Scheme := ⟨k.rules, k.rootRule⟩

namespace Scheme

structure Consistent (k : Scheme) (graphs : Sided Graph) (t : Correspondences) : Prop where
  sound : ∀ s, (graphs.on s).Sound
  listed : t.Listed
  key_inj : ∀ s, ∀ c ∈ t.entries, ∀ c' ∈ t.entries, c.rule = c'.rule →
    c.element s = c'.element s → c = c'
  element_lt : ∀ s, ∀ c ∈ t.entries, (c.element s).index < (graphs.on s).next
  anchor : ∀ c ∈ t.entries, c.isAnchor = true → c.rule = k.rootRule ∧
    c.elements = graphs.map Graph.root
  inner : ∀ c ∈ t.entries, c.isAnchor = false → c.elements ≠ graphs.map Graph.root
  typed : ∀ c ∈ t.entries, ∃ r, k.rules.rule? c.rule = some r ∧
    ∀ s kind, (graphs.on s).kind? (c.element s) = some kind → kind = r.types.on s
  remembered : ∀ c ∈ t.entries, ∀ r, k.rules.rule? c.rule = some r →
    ∀ bi ∈ r.numbered, ∀ values, c.shadow? bi.2 = some values → bi.1.Agreed values

namespace Consistent

variable {k : Scheme} {graphs graphs' : Sided Graph} {t t' : Correspondences}
  {c c' : Correspondence} {s : Side} {rule : RuleName} {pair : Sided ElementId}

/-- A record without entries is consistent with any graphs. -/
theorem empty (k : Scheme) (hs : ∀ s, (graphs.on s).Sound) : k.Consistent graphs {} where
  sound := hs
  listed := ⟨.nil, fun _ hc => by cases hc⟩
  key_inj _ _ hc := by cases hc
  element_lt _ _ hc := by cases hc
  anchor _ hc := by cases hc
  inner _ hc := by cases hc
  typed _ hc := by cases hc
  remembered _ hc := by cases hc

theorem keyed (h : k.Consistent graphs t) (s : Side) : t.Keyed s := h.key_inj s

theorem obtain?_recorded (h : k.Consistent graphs t) (hc : c ∈ t.entries) (d : Direction) :
    t.obtain? c.rule c.elements d = .ok (⟨c.id, false⟩, t) :=
  (h.keyed .left).obtain?_recorded hc d

/-- There is one anchor. -/
theorem anchor_unique (h : k.Consistent graphs t) (hc : c ∈ t.entries) (hc' : c' ∈ t.entries)
    (ha : c.isAnchor = true) (ha' : c'.isAnchor = true) : c = c' := by
  obtain ⟨hr, he⟩ := h.anchor c hc ha
  obtain ⟨hr', he'⟩ := h.anchor c' hc' ha'
  exact h.key_inj .left c hc c' hc' (hr.trans hr'.symm)
    (by rw [Correspondence.element, he, Correspondence.element, he'])

theorem anchor?_eq (h : k.Consistent graphs t) (hc : c ∈ t.entries) (ha : c.isAnchor = true) :
    t.anchor? = some c := by
  cases hf : t.anchor? with
  | none => exact absurd ha (List.find?_eq_none.mp hf c hc)
  | some c' =>
    have hc' := List.mem_of_find?_eq_some hf
    have ha' : c'.isAnchor = true := by simpa using List.find?_some hf
    rw [h.anchor_unique hc hc' ha ha']

/-- The rule of the anchor is the root rule, and it fits the roots. -/
theorem anchor_rule (h : k.Consistent graphs t) (hc : c ∈ t.entries) (ha : c.isAnchor = true) :
    ∃ r, k.rules.rule? k.rootRule = some r ∧
      ∀ s, (graphs.on s).kind? (graphs.on s).root = some (r.types.on s) := by
  obtain ⟨hrule, hel⟩ := h.anchor c hc ha
  obtain ⟨r, hr, htypes⟩ := h.typed c hc
  refine ⟨r, hrule ▸ hr, fun s => ?_⟩
  obtain ⟨kind, hkind⟩ := Graph.contains_iff_kind.mp (h.sound s).root_live
  have hroot : c.element s = (graphs.on s).root := by rw [Correspondence.element, hel, Sided.on_map]
  rw [hkind, htypes s kind (hroot ▸ hkind)]

/-- The roots have their pair, or another pair is in the way of it, or they are paired now. -/
theorem anchor_cases (h : k.Consistent graphs t) (d : Direction) :
    (∃ c ∈ t.entries, c.isAnchor = true ∧
      t.anchor k.rootRule (graphs.map Graph.root) d = .ok (⟨c.id, false⟩, t)) ∨
    ((∀ c ∈ t.entries, c.isAnchor = false) ∧
      ((∃ conflict, t.anchor k.rootRule (graphs.map Graph.root) d = .error conflict) ∨
        (∀ s, ∀ c ∈ t.entries, c.rule = k.rootRule → c.element s ≠ (graphs.on s).root) ∧
          t.anchor k.rootRule (graphs.map Graph.root) d = .ok (⟨⟨t.next⟩, true⟩,
            { entries := t.entries ++ [t.anchorEntry k.rootRule (graphs.map Graph.root) d]
              next := t.next + 1 }))) := by
  unfold Correspondences.anchor
  cases ha : t.anchor? with
  | some c =>
    have hm := List.mem_of_find?_eq_some ha
    have hc : c.isAnchor = true := by simpa using List.find?_some ha
    have hi : c.Is k.rootRule (graphs.map Graph.root) := h.anchor c hm hc
    exact .inl ⟨c, hm, hc, by simp [hi]⟩
  | none =>
    have hn : ∀ c ∈ t.entries, c.isAnchor = false := fun c hc => by
      simpa using List.find?_eq_none.mp ha c hc
    refine .inr ⟨hn, ?_⟩
    unfold Correspondences.obtain?
    cases hr : t.rival? k.rootRule (graphs.map Graph.root) with
    | some c =>
      have hm : c ∈ t.entries := Correspondences.mem_of_rival? hr
      have hi : ¬ c.Is k.rootRule (graphs.map Graph.root) := fun hi => h.inner c hm (hn c hm) hi.2
      exact .inl
        ⟨⟨k.rootRule, graphs.map Graph.root, c.elements⟩, by simp [hi, bind, Except.bind]⟩
    | none =>
      refine .inr ⟨?_, ?_⟩
      · intro s c hc hrule he
        refine Correspondences.rival?_eq_none hr s c hc hrule ?_
        rw [he, Sided.on_map]
      · have hold :
            t.entries.map
              (fun c => if c.id = ⟨t.next⟩ then { c with isAnchor := true } else c) =
            t.entries := by
          refine List.map_congr_left (g := id) ?_ |>.trans (List.map_id _)
          intro c hc
          have hb := h.listed.bounded c hc
          have hne : c.id ≠ ⟨t.next⟩ := fun e => by simp [e] at hb
          simp [hne]
        simp [bind, Except.bind, pure, Except.pure, Correspondences.modify, hold,
          Correspondences.anchorEntry, Correspondences.newEntry]

theorem mem_without (h : k.Consistent graphs t) {x : ElementId} :
    c ∈ (t.without rule s x).entries ↔ c ∈ t.entries ∧
      ¬ (c.rule = rule ∧ c.element s = x) :=
  (h.keyed s).mem_without h.listed

theorem unpaired_without (h : k.Consistent graphs t) {x : ElementId} :
    ∀ c ∈ (t.without rule s x).entries, c.rule = rule → c.element s ≠ x :=
  fun _ hc hr he => (h.mem_without.mp hc).2 ⟨hr, he⟩

/-- No recorded pair has an element that is still to be made. -/
theorem fresh (h : k.Consistent graphs t) (s : Side) :
    ∀ c ∈ t.entries, c.element s ≠ ⟨(graphs.on s).next⟩ := by
  intro c hc he
  have hlt := h.element_lt s c hc
  rw [he] at hlt
  exact Nat.lt_irrefl _ hlt

/-- Graphs may be edited on both sides. -/
theorem edited (h : k.Consistent graphs t) (hf : ∀ s, (graphs.on s).Follows (graphs'.on s)) :
    k.Consistent graphs' t where
  sound s := (hf s).sound
  listed := h.listed
  key_inj := h.key_inj
  element_lt s c hc := Nat.lt_of_lt_of_le (h.element_lt s c hc) (hf s).next_le
  anchor c hc ha := h.anchor c hc ha
  inner c hc hi := h.inner c hc hi
  typed c hc := by
    obtain ⟨r, hr, ht⟩ := h.typed c hc
    exact ⟨r, hr, fun s kind hk =>
      ht s kind ((hf s).kind_of_old _ kind (h.element_lt s c hc) hk)⟩
  remembered := h.remembered

theorem put (h : k.Consistent graphs t) {g : Graph} (hf : (graphs.on s).Follows g) :
    k.Consistent (graphs.put s g) t := by
  apply h.edited
  intro s'
  by_cases hs : s' = s
  · subst s'
    simpa using hf
  · rw [Sided.on_put_of_ne _ _ hs]
    exact (h.sound s').refl

/-- Entries may be dropped. -/
theorem sublist (h : k.Consistent graphs t) (hs : t'.entries.Sublist t.entries)
    (hn : t'.next = t.next) : k.Consistent graphs t' where
  sound := h.sound
  listed := h.listed.sublist hs hn
  key_inj s c hc c' hc' := h.key_inj s c (hs.subset hc) c' (hs.subset hc')
  element_lt s c hc := h.element_lt s c (hs.subset hc)
  anchor c hc := h.anchor c (hs.subset hc)
  inner c hc := h.inner c (hs.subset hc)
  typed c hc := h.typed c (hs.subset hc)
  remembered c hc := h.remembered c (hs.subset hc)

/-- Values that agree may be remembered. -/
theorem recordShadow (h : k.Consistent graphs t) {id : CorrespondenceId} {index : Nat}
    {values : Shadow}
    (hv : ∀ c ∈ t.entries, c.id = id → ∀ r, k.rules.rule? c.rule = some r →
      ∀ bi ∈ r.numbered, bi.2 = index →
      bi.1.Agreed values) : k.Consistent graphs (t.recordShadow id index values) := by
  have old {P : Correspondence → Prop} (hp : ∀ a ∈ t.entries, P a)
      (hk : ∀ c a : Correspondence, c.core = a.core → P a → P c) :
      ∀ c ∈ (t.recordShadow id index values).entries, P c := by
    intro c hc
    obtain ⟨a, ha, hca, _⟩ := Correspondences.mem_recordShadow hc
    exact hk c a hca (hp a ha)
  exact {
    sound := h.sound
    listed := h.listed.map fun c => by split <;> rfl
    key_inj := fun s c hc c' hc' er e => by
      obtain ⟨a, ha, hk, hne, he⟩ := Correspondences.mem_recordShadow hc
      obtain ⟨a', ha', hk', hne', he'⟩ := Correspondences.mem_recordShadow hc'
      rw [Correspondence.rule_eq_of_core hk, Correspondence.rule_eq_of_core hk'] at er
      rw [Correspondence.element_eq_of_core hk, Correspondence.element_eq_of_core hk'] at e
      obtain rfl := h.key_inj s a ha a' ha' er e
      by_cases hi : a.id = id
      · rw [he hi, he' hi]
      · rw [hne hi, hne' hi]
    element_lt :=
      fun s => old (h.element_lt s) fun c a hk hp => by rwa [Correspondence.element_eq_of_core hk]
    anchor := old h.anchor fun c a hk hp => by
      rwa [Correspondence.isAnchor_eq_of_core hk, Correspondence.rule_eq_of_core hk,
        Correspondence.elements_eq_of_core hk]
    inner := old h.inner fun c a hk hp => by
      rwa [Correspondence.isAnchor_eq_of_core hk, Correspondence.elements_eq_of_core hk]
    typed := old h.typed fun c a hk hp => by
      simpa only [Correspondence.rule_eq_of_core hk, Correspondence.element_eq_of_core hk] using hp
    remembered := fun c hc r hr bi hbi v hs => by
      obtain ⟨a, ha, hk, hne, he⟩ := Correspondences.mem_recordShadow hc
      rw [Correspondence.rule_eq_of_core hk] at hr
      by_cases hi : a.id = id
      · rw [he hi, Correspondence.shadow?] at hs
        by_cases hx : bi.2 = index
        · rw [hx, Dict.get?_insert_self] at hs
          cases hs
          exact hv a ha hi r hr bi hbi hx
        · rw [Dict.get?_insert_of_ne _ _ hx] at hs
          exact h.remembered a ha r hr bi hbi v hs
      · rw [hne hi] at hs
        exact h.remembered a ha r hr bi hbi v hs }

/-- A pair that shares no rule and element with another one may be recorded. -/
theorem append (h : k.Consistent graphs t) (hi : c.id = ⟨t.next⟩)
    (hk : ∀ s, ∀ a ∈ t.entries, a.rule = c.rule → a.element s ≠ c.element s)
    (hl : ∀ s, (c.element s).index < (graphs.on s).next)
    (ha : c.isAnchor = true → c.rule = k.rootRule ∧ c.elements = graphs.map Graph.root)
    (hn : c.isAnchor = false → c.elements ≠ graphs.map Graph.root)
    (ht : ∃ r, k.rules.rule? c.rule = some r ∧
      ∀ s kind, (graphs.on s).kind? (c.element s) = some kind → kind = r.types.on s)
    (hs : ∀ index, c.shadow? index = none) :
    k.Consistent graphs { entries := t.entries ++ [c], next := t.next + 1 } := by
  have all {P : Correspondence → Prop} (hp : ∀ a ∈ t.entries, P a) (hc : P c) :
      ∀ a ∈ t.entries ++ [c], P a := by
    intro a ha
    rcases List.mem_append.mp ha with ha | ha
    · exact hp a ha
    · exact List.mem_singleton.mp ha ▸ hc
  exact {
    sound := h.sound
    listed := h.listed.append hi
    key_inj := fun s => all
      (fun a ha => all (h.key_inj s a ha) fun er e => absurd e (hk s a ha er))
      (all (fun a ha er e => absurd e.symm (hk s a ha er.symm)) fun _ _ => rfl)
    element_lt := fun s => all (h.element_lt s) (hl s)
    anchor := all h.anchor ha
    inner := all h.inner hn
    typed := all h.typed ht
    remembered := all h.remembered fun r _ bi _ v hv => by
      rw [hs] at hv
      cases hv }

end Consistent

end Scheme

end GraphSync
