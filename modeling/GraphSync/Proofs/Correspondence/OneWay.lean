import GraphSync.Proofs.Correspondence.Entries
import GraphSync.Proofs.Graph.Sound
import GraphSync.Rule.Set
import Mathlib.Data.List.Nodup

namespace GraphSync

/-- What never changes in a session that follows one side. -/
structure OneWay where
  rules : RuleSet
  rootRule : RuleName
  source : Side
  forced : Bool

namespace OneWay

def target (k : OneWay) : Side := k.source.other

def direction (k : OneWay) : Direction := .oneWay k.source k.forced

@[simp] theorem source_other (k : OneWay) : k.source.other = k.target := rfl

@[simp] theorem target_other (k : OneWay) : k.target.other = k.source := Side.other_other _

theorem target_ne_source (k : OneWay) : k.target ≠ k.source := Side.other_ne _

theorem side_cases (k : OneWay) (s : Side) : s = k.source ∨ s = k.target :=
  k.source.eq_or_eq_other s

/-- The pair of a source element and a target element. -/
def pair (k : OneWay) (x y : ElementId) : Sided ElementId := k.source.arrange x y

@[simp] theorem pair_source (k : OneWay) (x y : ElementId) : (k.pair x y).on k.source = x :=
  Sided.on_arrange_self _ _ _

@[simp] theorem pair_target (k : OneWay) (x y : ElementId) : (k.pair x y).on k.target = y :=
  Sided.on_arrange_other _ _ _

theorem pair_eq (k : OneWay) (p : Sided ElementId) : k.pair (p.on k.source) (p.on k.target) = p :=
  Sided.arrange_on p k.source

theorem sided_ext {α : Type} {k : OneWay} {p p' : Sided α} (hs : p.on k.source = p'.on k.source)
    (ht : p.on k.target = p'.on k.target) : p = p' := by
  unfold target at ht
  cases hk : k.source <;> rw [hk] at hs ht
  · exact Sided.ext hs ht
  · exact Sided.ext ht hs

structure Coherent (k : OneWay) (graphs : Sided Graph) (t : Correspondences) : Prop where
  sound : ∀ s, (graphs.on s).Sound
  listed : t.Listed
  target_inj : ∀ c ∈ t.entries, ∀ c' ∈ t.entries,
    c.element k.target = c'.element k.target → c = c'
  key_inj : ∀ c ∈ t.entries, ∀ c' ∈ t.entries, c.rule = c'.rule →
    c.element k.source = c'.element k.source → c = c'
  target_lt : ∀ c ∈ t.entries, (c.element k.target).index < (graphs.on k.target).next
  anchor : ∀ c ∈ t.entries, c.isAnchor = true → c.rule = k.rootRule ∧
    c.elements = graphs.map Graph.root
  member : ∀ c ∈ t.entries, c.isAnchor = false →
    c.element k.target ≠ (graphs.on k.target).root
  known : ∀ c ∈ t.entries, ∃ r, k.rules.rule? c.rule = some r

namespace Coherent

variable {k : OneWay} {graphs graphs' : Sided Graph} {t t' : Correspondences}
  {c c' : Correspondence}

/-- A record without entries is coherent with any graphs. -/
theorem empty (k : OneWay) (hs : ∀ s, (graphs.on s).Sound) : k.Coherent graphs {} where
  sound := hs
  listed := ⟨.nil, fun _ hc => by cases hc⟩
  target_inj _ hc := by cases hc
  key_inj _ hc := by cases hc
  target_lt _ hc := by cases hc
  anchor _ hc := by cases hc
  member _ hc := by cases hc
  known _ hc := by cases hc

/-- A rule and an element on either side name one entry. -/
theorem eq_of_side (h : k.Coherent graphs t) (hc : c ∈ t.entries) (hc' : c' ∈ t.entries)
    (hr : c.rule = c'.rule) (s : Side) (he : c.element s = c'.element s) : c = c' := by
  rcases k.side_cases s with rfl | rfl
  · exact h.key_inj c hc c' hc' hr he
  · exact h.target_inj c hc c' hc' he

theorem keyed (h : k.Coherent graphs t) (s : Side) : t.Keyed s :=
  fun _ hc _ hc' hr he => h.eq_of_side hc hc' hr s he

theorem lookup?_eq (h : k.Coherent graphs t) (hc : c ∈ t.entries) (s : Side) :
    t.lookup? c.rule s (c.element s) = some c :=
  (h.keyed s).lookup?_eq hc

theorem obtain?_recorded (h : k.Coherent graphs t) (hc : c ∈ t.entries) (d : Direction) :
    t.obtain? c.rule c.elements d = .ok (⟨c.id, false⟩, t) :=
  (h.keyed .left).obtain?_recorded hc d

/-- A pair whose target takes part in none, and whose source has none under the rule, is
recorded. -/
theorem obtain?_new {rule : RuleName} {p : Sided ElementId}
    (hs : ∀ c ∈ t.entries, c.rule = rule → c.element k.source ≠ p.on k.source)
    (ht : ∀ c ∈ t.entries, c.element k.target ≠ p.on k.target) (d : Direction) :
    t.obtain? rule p d =
      .ok (⟨⟨t.next⟩, true⟩,
        { entries := t.entries ++ [t.newEntry rule p d], next := t.next + 1 }) :=
  Correspondences.obtain?_new hs ht d

/-- A new target for a source that is paired under the rule contradicts that pair. -/
theorem obtain?_rival (h : k.Coherent graphs t) (hc : c ∈ t.entries) {p : Sided ElementId}
    (hs : c.element k.source = p.on k.source)
    (ht : ∀ c ∈ t.entries, c.element k.target ≠ p.on k.target) (d : Direction) :
    t.obtain? c.rule p d = .error ⟨c.rule, p, c.elements⟩ := by
  have hsource : t.lookup? c.rule k.source (p.on k.source) = some c :=
    hs ▸ h.lookup?_eq hc k.source
  have htarget : t.lookup? c.rule k.target (p.on k.target) = none :=
    Correspondences.lookup?_eq_none fun a ha _ => ht a ha
  have hr : t.rival? c.rule p = some c := by
    unfold Correspondences.rival?
    rcases k.side_cases .left with hl | hl
    · rw [← hl] at hsource
      simp [show t.lookup? c.rule .left p.left = some c from hsource]
    · have hl' : k.source = .right := by
        rw [← k.target_other, ← hl]
        rfl
      rw [← hl] at htarget
      rw [hl'] at hsource
      simp [show t.lookup? c.rule .left p.left = none from htarget,
        show t.lookup? c.rule .right p.right = some c from hsource]
  have hn : ¬ c.Is c.rule p := fun hi => ht c hc (congrArg (·.on k.target) hi.2)
  simp [Correspondences.obtain?, hr, hn]

theorem mem_without (h : k.Coherent graphs t) {rule : RuleName} {s : Side} {x : ElementId} :
    c ∈ (t.without rule s x).entries ↔ c ∈ t.entries ∧
      ¬ (c.rule = rule ∧ c.element s = x) :=
  (h.keyed s).mem_without h.listed

/-- The roots have their pair, or the source root has another partner under the root rule, or they
are paired now. -/
theorem anchor_cases (h : k.Coherent graphs t) (d : Direction) :
    (∃ c ∈ t.entries, c.isAnchor = true ∧
      t.anchor k.rootRule (graphs.map Graph.root) d = .ok (⟨c.id, false⟩, t)) ∨
    ((∀ c ∈ t.entries, c.isAnchor = false) ∧ ∃ c ∈ t.entries, c.rule = k.rootRule ∧
      c.element k.source = (graphs.on k.source).root ∧
      t.anchor k.rootRule (graphs.map Graph.root) d =
        .error ⟨k.rootRule, graphs.map Graph.root, c.elements⟩) ∨
    ((∀ c ∈ t.entries, c.isAnchor = false) ∧
      (∀ c ∈ t.entries, c.rule = k.rootRule →
        c.element k.source ≠ (graphs.on k.source).root) ∧
      t.anchor k.rootRule (graphs.map Graph.root) d = .ok (⟨⟨t.next⟩, true⟩,
        { entries := t.entries ++ [t.anchorEntry k.rootRule (graphs.map Graph.root) d]
          next := t.next + 1 })) := by
  unfold Correspondences.anchor
  cases ha : t.anchor? with
  | some c =>
    have hm := List.mem_of_find?_eq_some ha
    have hc : c.isAnchor = true := by simpa using List.find?_some ha
    have hi : c.Is k.rootRule (graphs.map Graph.root) := h.anchor c hm hc
    exact .inl ⟨c, hm, hc, by simp [hi]⟩
  | none =>
    have hn : ∀ c ∈ t.entries, c.isAnchor = false := fun c hc => by
      simpa using List.find?_eq_none.mp ha c hc
    have away : ∀ c ∈ t.entries, c.element k.target ≠ (graphs.map Graph.root).on k.target :=
      fun c hc => by
        simpa using h.member c hc (hn c hc)
    refine .inr ?_
    by_cases hk : ∀ c ∈ t.entries, c.rule = k.rootRule →
      c.element k.source ≠ (graphs.on k.source).root
    · refine .inr ⟨hn, hk, ?_⟩
      have hs : ∀ c ∈ t.entries, c.rule = k.rootRule →
          c.element k.source ≠ (graphs.map Graph.root).on k.source := by simpa using hk
      have hold :
          t.entries.map (fun c => if c.id = ⟨t.next⟩ then { c with isAnchor := true } else c) =
          t.entries := by
        refine List.map_congr_left (g := id) ?_ |>.trans (List.map_id _)
        intro c hc
        have hb := h.listed.bounded c hc
        have hne : c.id ≠ ⟨t.next⟩ := fun e => by simp [e] at hb
        simp [hne]
      simp [obtain?_new hs away, bind, Except.bind, pure, Except.pure, Correspondences.modify, hold,
        Correspondences.anchorEntry, Correspondences.newEntry]
    · simp only [not_forall, ne_eq, not_not] at hk
      obtain ⟨c, hc, hr, he⟩ := hk
      refine .inl ⟨hn, c, hc, hr, he, ?_⟩
      have ho := h.obtain?_rival hc (p := graphs.map Graph.root) (by simpa using he) away d
      rw [hr] at ho
      simp [ho, bind, Except.bind]

/-- Entries differ in the source element or in the rule. -/
theorem keys_nodup (h : k.Coherent graphs t) :
    (t.entries.map fun c => (c.element k.source, c.rule)).Nodup := by
  refine List.Nodup.map_on ?_ h.listed.entries_nodup
  intro c hc c' hc' he
  obtain ⟨hel, hrule⟩ := Prod.mk.inj he
  exact h.key_inj c hc c' hc' hrule hel

theorem targets_nodup (h : k.Coherent graphs t) : (t.entries.map (·.element k.target)).Nodup := by
  refine List.Nodup.map_on ?_ h.listed.entries_nodup
  intro c hc c' hc' he
  exact h.target_inj c hc c' hc' he

/-- One entry is that of the roots. -/
theorem length_entries (h : k.Coherent graphs t) (hc : c ∈ t.entries) (ha : c.isAnchor = true) :
    t.entries.length = t.members.length + 1 := by
  have hone : t.entries.countP (·.isAnchor) = 1 := by
    rw [← List.count_eq_one_of_mem h.listed.entries_nodup hc]
    apply List.countP_congr
    intro a hm
    rw [beq_iff_eq]
    refine ⟨?_, fun e => e ▸ ha⟩
    intro hanchor
    apply h.target_inj a hm c hc
    rw [Correspondence.element, Correspondence.element, (h.anchor a hm hanchor).2,
      (h.anchor c hc ha).2]
  rw [List.length_eq_countP_add_countP (·.isAnchor), hone,
    Correspondences.members, ← List.countP_eq_length_filter]
  simp only [Bool.not_eq_true, Bool.decide_eq_false]
  exact Nat.add_comm _ _

/-- Graphs may be edited on both sides. -/
theorem edited (h : k.Coherent graphs t) (hf : ∀ s, (graphs.on s).Follows (graphs'.on s)) :
    k.Coherent graphs' t where
  sound s := (hf s).sound
  listed := h.listed
  target_inj := h.target_inj
  key_inj := h.key_inj
  target_lt c hc := Nat.lt_of_lt_of_le (h.target_lt c hc) (hf k.target).next_le
  anchor c hc ha := h.anchor c hc ha
  member c hc hn := h.member c hc hn
  known := h.known

theorem put (h : k.Coherent graphs t) {s : Side} {g : Graph} (hf : (graphs.on s).Follows g) :
    k.Coherent (graphs.put s g) t := by
  apply h.edited
  intro s'
  by_cases hs : s' = s
  · subst s'
    simpa using hf
  · rw [Sided.on_put_of_ne _ _ hs]
    exact (h.sound s').refl

/-- Entries may be dropped. -/
theorem sublist (h : k.Coherent graphs t) (hs : t'.entries.Sublist t.entries)
    (hn : t'.next = t.next) : k.Coherent graphs t' where
  sound := h.sound
  listed := h.listed.sublist hs hn
  target_inj c hc c' hc' := h.target_inj c (hs.subset hc) c' (hs.subset hc')
  key_inj c hc c' hc' := h.key_inj c (hs.subset hc) c' (hs.subset hc')
  target_lt c hc := h.target_lt c (hs.subset hc)
  anchor c hc := h.anchor c (hs.subset hc)
  member c hc := h.member c (hs.subset hc)
  known c hc := h.known c (hs.subset hc)

theorem remove (h : k.Coherent graphs t) (id : CorrespondenceId) :
    k.Coherent graphs (t.remove id) :=
  h.sublist List.filter_sublist rfl

theorem recordShadow (h : k.Coherent graphs t) (id : CorrespondenceId) (binding : Nat)
    (values : Shadow) : k.Coherent graphs (t.recordShadow id binding values) := by
  have inj {c c' : Correspondence} (hc : c ∈ (t.recordShadow id binding values).entries)
      (hc' : c' ∈ (t.recordShadow id binding values).entries)
      (eq : ∀ a ∈ t.entries, ∀ a' ∈ t.entries, c.core = a.core →
        c'.core = a'.core → a = a') :
      c = c' := by
    obtain ⟨a, ha, hk, hne, he⟩ := Correspondences.mem_recordShadow hc
    obtain ⟨a', ha', hk', hne', he'⟩ := Correspondences.mem_recordShadow hc'
    obtain rfl := eq a ha a' ha' hk hk'
    by_cases hi : a.id = id
    · rw [he hi, he' hi]
    · rw [hne hi, hne' hi]
  have old {P : Correspondence → Prop} (hp : ∀ a ∈ t.entries, P a)
      (hk : ∀ c a : Correspondence, c.core = a.core → P a → P c) :
      ∀ c ∈ (t.recordShadow id binding values).entries, P c := by
    intro c hc
    obtain ⟨a, ha, hca, _⟩ := Correspondences.mem_recordShadow hc
    exact hk c a hca (hp a ha)
  exact {
    sound := h.sound
    listed := h.listed.map fun c => by split <;> rfl
    target_inj := fun c hc c' hc' e => inj hc hc' fun a ha a' ha' hk hk' =>
      h.target_inj a ha a' ha' (by
        rw [← Correspondence.element_eq_of_core hk, e, Correspondence.element_eq_of_core hk'])
    key_inj := fun c hc c' hc' er e => inj hc hc' fun a ha a' ha' hk hk' =>
      h.key_inj a ha a' ha'
        (by rw [← Correspondence.rule_eq_of_core hk, er, Correspondence.rule_eq_of_core hk'])
        (by rw [← Correspondence.element_eq_of_core hk, e, Correspondence.element_eq_of_core hk'])
    target_lt := old h.target_lt fun c a hk hp => by rwa [Correspondence.element_eq_of_core hk]
    anchor := old h.anchor fun c a hk hp => by
      rwa [Correspondence.isAnchor_eq_of_core hk, Correspondence.rule_eq_of_core hk,
        Correspondence.elements_eq_of_core hk]
    member := old h.member fun c a hk hp => by
      rwa [Correspondence.isAnchor_eq_of_core hk, Correspondence.element_eq_of_core hk]
    known := old h.known fun c a hk hp => by rwa [Correspondence.rule_eq_of_core hk] }

/-- A pair with a new target may be recorded. -/
theorem append (h : k.Coherent graphs t) (hi : c.id = ⟨t.next⟩)
    (hs : ∀ a ∈ t.entries, a.rule = c.rule → a.element k.source ≠ c.element k.source)
    (ht : ∀ a ∈ t.entries, a.element k.target ≠ c.element k.target)
    (hl : (c.element k.target).index < (graphs.on k.target).next)
    (ha : c.isAnchor = true → c.rule = k.rootRule ∧ c.elements = graphs.map Graph.root)
    (hm : c.isAnchor = false → c.element k.target ≠ (graphs.on k.target).root)
    (hr : ∃ r, k.rules.rule? c.rule = some r) :
    k.Coherent graphs { entries := t.entries ++ [c], next := t.next + 1 } := by
  have all {P : Correspondence → Prop} (hp : ∀ a ∈ t.entries, P a) (hc : P c) :
      ∀ a ∈ t.entries ++ [c], P a := by
    intro a ha
    rcases List.mem_append.mp ha with ha | ha
    · exact hp a ha
    · exact List.mem_singleton.mp ha ▸ hc
  exact {
    sound := h.sound
    listed := h.listed.append hi
    target_inj := all
      (fun a ha => all (h.target_inj a ha) fun e => absurd e (ht a ha))
      (all (fun a ha e => absurd e.symm (ht a ha)) fun _ => rfl)
    key_inj := all
      (fun a ha => all (h.key_inj a ha) fun er e => absurd e (hs a ha er))
      (all (fun a ha er e => absurd e.symm (hs a ha er.symm)) fun _ _ => rfl)
    target_lt := all h.target_lt hl
    anchor := all h.anchor ha
    member := all h.member hm
    known := all h.known hr }

end Coherent

end OneWay

end GraphSync
