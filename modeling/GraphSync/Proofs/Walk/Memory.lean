import GraphSync.Proofs.Walk.Anchor

namespace GraphSync

open Walk

theorem Rule.lt_of_mem_numbered {r : Rule} {bi : Binding × Nat} (h : bi ∈ r.numbered) :
    bi.2 < r.bindings.length := by
  rw [numbered, List.mem_zipIdx_iff_getElem?] at h
  obtain ⟨hlt, _⟩ := List.getElem?_eq_some_iff.mp h
  exact hlt

namespace Scheme

/-- A pair remembers values at positions of its rule only. -/
def Indexed (k : Scheme) (t : Correspondences) : Prop :=
  ∀ c ∈ t.entries, ∀ r, k.rules.rule? c.rule = some r → ∀ index,
    c.shadow? index ≠ none → index < r.bindings.length

variable {k : Scheme} {d : Direction} {V : CorrespondenceId → Prop} {a b : Store} {w w' : State}
  {t t' : Correspondences}

theorem indexed_empty (k : Scheme) : k.Indexed {} := fun c hc => by cases hc

theorem Indexed.subset (h : k.Indexed t) (hs : t'.entries ⊆ t.entries) : k.Indexed t' :=
  fun c hc => h c (hs hc)

/-- A new pair remembers nothing. -/
theorem Indexed.append (h : k.Indexed t) {c : Correspondence}
    (hc : ∀ index, c.shadow? index = none) (next : Nat) :
    k.Indexed { entries := t.entries ++ [c], next } := by
  intro a ha r hr index hi
  rcases List.mem_append.mp ha with ha | ha
  · exact h a ha r hr index hi
  · rw [List.mem_singleton.mp ha] at hi
    exact absurd (hc index) hi

theorem Indexed.recordShadow (h : k.Indexed t) {id : CorrespondenceId} {i : Nat} (values : Shadow)
    (hi : ∀ c ∈ t.entries, c.id = id → ∀ r, k.rules.rule? c.rule = some r →
      i < r.bindings.length) :
    k.Indexed (t.recordShadow id i values) := by
  intro c hc r hr index hv
  obtain ⟨a, ha, hcore, hother, hthis⟩ := Correspondences.mem_recordShadow hc
  rw [Correspondence.rule_eq_of_core hcore] at hr
  by_cases hid : a.id = id
  · rw [hthis hid] at hv
    by_cases hindex : index = i
    · rw [hindex]
      exact hi a ha hid r hr
    · have hold : a.shadow? index ≠ none := by
        simpa [Correspondence.shadow?, Dict.get?_insert_of_ne _ _ hindex] using hv
      exact h a ha r hr index hold
  · rw [hother hid] at hv
    exact h a ha r hr index hv

end Scheme

namespace Act

variable {k : Scheme} {d : Direction} {V : CorrespondenceId → Prop} {a b : Store}

theorem indexed (h : Act k d V a b) (ha : k.Indexed a.pairs) : k.Indexed b.pairs := by
  have shadowed {id : CorrespondenceId} {rule : Rule} {pair : Sided ElementId} {bd : Binding}
      {index : Nat} (values : Sided Value) (names : a.Names id rule pair)
      (known : k.rules.rule? rule.name = some rule) (numbered : (bd, index) ∈ rule.numbered) :
      k.Indexed (a.pairs.recordShadow id index values) := by
    refine ha.recordShadow values fun c hc hi r hr => ?_
    have hrule : c.rule = rule.name := (names.entry c hc hi).1
    rw [hrule, known] at hr
    cases hr
    exact Rule.lt_of_mem_numbered numbered
  cases h with
  | remember on names known numbered => exact shadowed _ names known numbered
  | copy on names known numbered => exact shadowed _ names known numbered
  | link => exact ha
  | unlink => exact ha
  | make => exact ha.subset (Correspondences.without_sublist _ _ _ _).1.subset
  | record => exact ha.append (fun _ => rfl) _

end Act

namespace Scheme

variable {k : Scheme} {d : Direction} {V : CorrespondenceId → Prop} {w w' : State}

theorem Went.indexed (hw : k.Went d V w w') (h : k.Consistent w.graphs w.pairs)
    (hi : k.Indexed w.pairs) : k.Indexed w'.pairs :=
  Acts.keep (P := fun a => k.Indexed a.pairs) hw.acts h (fun _ _ _ hact => hact.indexed) hi

theorem indexed_syncRoots (h : k.Consistent w.graphs w.pairs) (hi : k.Indexed w.pairs) :
    wp (syncRoots k.rules d k.rootRule) (fun _ w' => k.Indexed w'.pairs)
      (fun _ w' => k.Indexed w'.pairs) w := by
  rw [syncRoots_eq, syncRootsBy, wp_bind]
  refine wp_pairRoots_paired h (fun _ => hi) (fun _ _ => hi) (fun _ _ => hi)
    fun r c w₁ hp hc => ?_
  have hi₁ : k.Indexed w₁.pairs := by
    intro a ha r' hr' index hv
    cases hanchor : a.isAnchor with
    | false => exact hi a (hp.new a ha hanchor) r' hr' index hv
    | true =>
      obtain rfl := hp.consistent.anchor_unique ha hp.entry hanchor hp.anchor
      rcases hc with hold | hnew
      · exact hi a hold r' hr' index hv
      · exact absurd (hnew index) hv
  refine wp_run_purged hp.consistent hp.entry hp.anchor hp.rule fun w₂ hpurged => ?_
  have hi₂ : k.Indexed w₂.pairs := hi₁.subset hpurged.frees.entries.subset
  have h₂ := hpurged.consistent
  exact wp_mono hpurged.traces (fun _ _ hw => hw.indexed h₂ hi₂)
    fun _ _ hw => hw.1.indexed h₂ hi₂

theorem indexed_carry (h : k.Consistent w.graphs w.pairs) (hi : k.Indexed w.pairs) {s : Side}
    (hs : s ∈ d.authorities) (c : Change) :
    wp (carry k.rules d s c) (fun _ w' => k.Indexed w'.pairs)
      (fun _ w' => k.Indexed w'.pairs) w := by
  let w₀ : State := { w with visited := [] }
  have h₀ : k.Consistent w₀.graphs w₀.pairs := h
  have hi₀ : k.Indexed w₀.pairs := hi
  refine wp_carry_traced h hs (fun _ hw _ => hw.indexed h₀ hi₀)
    (fun _ _ hw _ _ => hw.indexed h₀ hi₀) ?_
  rintro _ _ target _ w' ⟨w₁, deleted, _, hpairs, rfl, _⟩
  have hpairs' : w₁.pairs = w.pairs := hpairs
  simpa only [hpairs'] using hi

end Scheme

end GraphSync
