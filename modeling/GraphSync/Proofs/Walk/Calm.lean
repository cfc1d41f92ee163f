import GraphSync.Proofs.Walk.Preserve

namespace GraphSync

open Walk

/-- The value of a side is the one that is remembered, or counts as such. -/
def Binding.Unmoved (shadow? : Option Shadow) (s : Side) (v : Value) : Prop :=
  match shadow? with
  | some shadow => shadow.on s = v ∨ (shadow.on s).same v = true
  | none => v.isDefault = true

namespace Binding

variable {shadow? : Option Shadow} {values : Sided Value} {s : Side}

theorem unmoved_of_unchanged (h : changed shadow? values s = false) :
    Unmoved shadow? s (values.on s) := by
  cases shadow? with
  | none => simpa [Unmoved, changed] using h
  | some shadow => exact .inr (by simpa [changed] using h)

theorem unmoved_self (values : Sided Value) (s : Side) : Unmoved (some values) s (values.on s) :=
  .inl rfl

theorem Unmoved.unchanged (h : Unmoved shadow? s (values.on s))
    (ho : (values.on s).isOrdered = true) : changed shadow? values s = false := by
  cases shadow? with
  | none => simpa [Unmoved, changed] using h
  | some shadow =>
    rcases h with he | hsame
    · simp [changed, he, (Value.same_self_iff _).mpr ho]
    · simp [changed, hsame]

end Binding

namespace Scheme

variable {k : Scheme} {d : Direction} {V : CorrespondenceId → Prop} {a b : Store} {w w' : State}
  {c₀ c : Correspondence} {s : Side}

/-- As long as the pair `c₀` is recorded and its element on side `s` lives, no attribute there that
its rule binds has moved. -/
structure Calm (k : Scheme) (c₀ : Correspondence) (s : Side) (a : Store) : Prop where
  old : c₀.id.index < a.pairs.next
  element_lt : (c₀.element s).index < (a.graphs.on s).next
  inner : c₀.isAnchor = false → c₀.element s ≠ (a.graphs.on s).root
  core : ∀ c ∈ a.pairs.entries, c.id = c₀.id → c.core = c₀.core
  unmoved : ∀ c ∈ a.pairs.entries, c.id = c₀.id →
    (a.graphs.on s).contains (c₀.element s) = true →
    ∀ r, k.rules.rule? c₀.rule = some r → ∀ bi ∈ r.numbered,
      Binding.Unmoved (c.shadow? bi.2) s
        ((a.graphs.on s).reading (c₀.element s) (bi.1.attributes.on s))

namespace Calm

/-- The element was there before, if it lives now. -/
theorem live (h : k.Calm c₀ s a) {g : Graph} (hf : (a.graphs.on s).Follows g)
    (hl : g.contains (c₀.element s) = true) :
    (a.graphs.on s).contains (c₀.element s) = true := by
  obtain ⟨kind, hkind⟩ := Graph.contains_iff_kind.mp hl
  exact Graph.contains_iff_kind.mpr ⟨kind, hf.kind_of_old _ kind h.element_lt hkind⟩

/-- Pairs may be dropped and new ones recorded, and everything but the bound attributes may
change. -/
theorem of_reading (h : k.Calm c₀ s a) (hf : (a.graphs.on s).Follows (b.graphs.on s))
    (hn : a.pairs.next ≤ b.pairs.next)
    (hentry : ∀ c ∈ b.pairs.entries, c ∈ a.pairs.entries ∨ a.pairs.next ≤ c.id.index)
    (hreading : (b.graphs.on s).contains (c₀.element s) = true → ∀ r,
      k.rules.rule? c₀.rule = some r →
      ∀ bi ∈ r.numbered, (b.graphs.on s).reading (c₀.element s) (bi.1.attributes.on s) =
        (a.graphs.on s).reading (c₀.element s) (bi.1.attributes.on s)) : k.Calm c₀ s b := by
  have old {c : Correspondence} (hc : c ∈ b.pairs.entries) (hi : c.id = c₀.id) :
      c ∈ a.pairs.entries :=
    (hentry c hc).resolve_right (Nat.not_le_of_lt (hi ▸ h.old))
  refine ⟨Nat.lt_of_lt_of_le h.old hn, Nat.lt_of_lt_of_le h.element_lt hf.next_le, h.inner,
    fun c hc hi => h.core c (old hc hi) hi, fun c hc hi hl r hr bi hbi => ?_⟩
  rw [hreading hl r hr bi hbi]
  exact h.unmoved c (old hc hi) hi (h.live hf hl) r hr bi hbi

/-- The element belongs to no other pair that a rule may be applied to. -/
theorem element_ne (h : k.Calm c₀ s a) (hk : k.Consistent a.graphs a.pairs)
    (ht : k.rules.UniqueTypes s) (hc : c ∈ a.pairs.entries) (hi : c.id = c₀.id)
    (hl : (a.graphs.on s).contains (c₀.element s) = true) {id : CorrespondenceId} {rule : Rule}
    {pair : Sided ElementId} (hn : a.Names id rule pair) (hid : id ≠ c₀.id) :
    c₀.element s ≠ pair.on s := by
  intro he
  have hcore := h.core c hc hi
  have hel : c.element s = c₀.element s := Correspondence.element_eq_of_core hcore s
  rcases hn.recorded with ⟨c', hc', hi', _, _⟩ | ⟨hroots, hanchors⟩
  · -- the type of the element tells the rule, and the rule the pair
    have hel' : c'.element s = c₀.element s := by
      rw [he, ← (hn.entry c' hc' hi').2]
      rfl
    obtain ⟨kind, hkind⟩ := Graph.contains_iff_kind.mp hl
    obtain ⟨r, hr, htyped⟩ := hk.typed c hc
    obtain ⟨r', hr', htyped'⟩ := hk.typed c' hc'
    obtain ⟨hm, hname⟩ := RuleSet.mem_of_rule? hr
    obtain ⟨hm', hname'⟩ := RuleSet.mem_of_rule? hr'
    have hrule : r = r' :=
      ht.eq hm hm' ((htyped s kind (hel ▸ hkind)).symm.trans (htyped' s kind (hel' ▸ hkind)))
    have hsame : c = c' :=
      hk.key_inj s c hc c' hc' (by rw [← hname, ← hname', hrule]) (hel.trans hel'.symm)
    exact hid (by rw [← hi', ← hi, hsame])
  · cases ha : c₀.isAnchor with
    | true =>
      exact hid
        ((hanchors c hc ((Correspondence.isAnchor_eq_of_core hcore).trans ha)).symm.trans hi)
    | false =>
      rw [hroots, Sided.on_map] at he
      exact h.inner ha he

/-- What is remembered for a pair is there. -/
theorem recordShadow (h : k.Calm c₀ s a) {graphs : Sided Graph} {id : CorrespondenceId}
    {rule : Rule} {pair : Sided ElementId} {bd : Binding} {index : Nat} {values : Sided Value}
    (hn : a.Names id rule pair) (known : k.rules.rule? rule.name = some rule)
    (numbered : (bd, index) ∈ rule.numbered) (hf : (a.graphs.on s).Follows (graphs.on s))
    (hvalue : values.on s = (graphs.on s).reading (pair.on s) (bd.attributes.on s))
    (hreading : ∀ c ∈ a.pairs.entries, c.id = c₀.id →
      (graphs.on s).contains (c₀.element s) = true →
      ∀ r, k.rules.rule? c₀.rule = some r → ∀ bi ∈ r.numbered,
        (id = c₀.id → r = rule ∧ bi ≠ (bd, index)) →
        (graphs.on s).reading (c₀.element s) (bi.1.attributes.on s) =
          (a.graphs.on s).reading (c₀.element s) (bi.1.attributes.on s)) :
    k.Calm c₀ s ⟨graphs, a.pairs.recordShadow id index values⟩ := by
  refine ⟨h.old, Nat.lt_of_lt_of_le h.element_lt hf.next_le, h.inner, fun c hc hi => ?_,
    fun c hc hi hl r hr bi hbi => ?_⟩
  · obtain ⟨c', hc', hcore, _⟩ := Correspondences.mem_recordShadow hc
    exact hcore.trans (h.core c' hc' ((Correspondence.id_eq_of_core hcore).symm.trans hi))
  obtain ⟨c', hc', hcore, hother, hthis⟩ := Correspondences.mem_recordShadow hc
  have hi' : c'.id = c₀.id := (Correspondence.id_eq_of_core hcore).symm.trans hi
  have hold := h.unmoved c' hc' hi' (h.live hf hl) r hr bi hbi
  by_cases hid : c'.id = id
  swap
  · rw [hother hid, hreading c' hc' hi' hl r hr bi hbi fun he => absurd (hi'.trans he.symm) hid]
    exact hold
  -- the rule that is applied is that of the pair
  obtain ⟨hrule, hpair⟩ := hn.entry c' hc' hid
  have hcore' := h.core c' hc' hi'
  have hel : c₀.element s = pair.on s := by
    rw [← Correspondence.element_eq_of_core hcore' s, ← hpair]
    rfl
  have hsame : r = rule := by
    rw [← Correspondence.rule_eq_of_core hcore', hrule, known] at hr
    exact (Option.some.inj hr).symm
  rw [hthis hid]
  by_cases hindex : bi.2 = index
  · obtain rfl : bi = (bd, index) := Rule.eq_of_index hbi (hsame ▸ numbered) hindex
    have hshadow : Correspondence.shadow? { c' with shadows := c'.shadows.insert index values }
        index = some values :=
      Dict.get?_insert_self _ _ _
    rw [hshadow, hel, ← hvalue]
    exact Binding.unmoved_self values s
  · have hshadow : Correspondence.shadow? { c' with shadows := c'.shadows.insert index values }
        bi.2 = c'.shadow? bi.2 :=
      Dict.get?_insert_of_ne _ _ hindex
    rw [hshadow, hreading c' hc' hi' hl r hr bi hbi fun _ => ⟨hsame, fun he => hindex (he ▸ rfl)⟩]
    exact hold

end Calm

end Scheme

/-- A write keeps a side of a pair calm. -/
theorem Act.calm {k : Scheme} {d : Direction} {V : CorrespondenceId → Prop} {a b : Store}
    {c₀ : Correspondence} {s : Side} (h : Act k d V a b) (hk : k.Consistent a.graphs a.pairs)
    (ht : ∀ s, k.rules.UniqueTypes s) (hu : ∀ s, k.rules.UniqueAttributes s)
    (hc : k.Calm c₀ s a) : k.Calm c₀ s b := by
  have hf := h.follows hk.sound s
  -- one graph is written, but for the attributes of its elements
  have put {t : Side} {g : Graph}
      (hreading : ∀ x name, g.reading x name = (a.graphs.on t).reading x name) (x : ElementId)
      (name : AttributeName) :
      ((a.graphs.put t g).on s).reading x name = (a.graphs.on s).reading x name := by
    by_cases hs : s = t
    · subst t
      rw [Sided.on_put_self]
      exact hreading x name
    · rw [Sided.on_put_of_ne _ _ hs]
  have hsame : ∀ c ∈ a.pairs.entries, c ∈ a.pairs.entries ∨ a.pairs.next ≤ c.id.index :=
    fun _ => .inl
  cases h with
  | remember on names known numbered inStep =>
    exact hc.recordShadow names known numbered hf (Store.values_on _ _ _ _)
      fun _ _ _ _ _ _ _ _ _ => rfl
  | @copy id rule pair bd index t g' on names known numbered side write =>
    have hlive : (a.graphs.on t.other).contains (pair.on t.other) = true :=
      names.live hk.sound t.other
    refine hc.recordShadow names known numbered hf ?_ fun c hmem hi hl r hr bi hbi hown => ?_
    · rcases t.eq_or_eq_other s with rfl | rfl
      · rw [Binding.copied, Sided.on_put_of_ne _ _ s.ne_other, Store.values_on,
          Sided.on_put_of_ne _ _ s.ne_other]
      · rw [Sided.on_put_self, write.reading_setValue hlive, if_pos ⟨rfl, rfl⟩]
    · rcases t.eq_or_eq_other s with rfl | rfl
      · rw [Sided.on_put_of_ne _ _ s.ne_other]
      · rw [Sided.on_put_self, write.reading_setValue hlive, if_neg]
        rintro ⟨he, hname⟩
        by_cases hid : id = c₀.id
        · obtain ⟨rfl, hne⟩ := hown hid
          exact hne
            (Rule.eq_of_attribute (hu t.other r (RuleSet.mem_of_rule? hr).1) hbi numbered hname)
        · exact hc.element_ne hk (ht t.other) hmem hi (hc.live hf hl) names hid he
  | link on names side partner live new le write =>
    exact hc.of_reading hf (Nat.le_refl _) hsame fun _ _ _ _ _ => put write.reading _ _
  | unlink forced on names side write =>
    exact hc.of_reading hf (Nat.le_refl _) hsame fun _ _ _ _ _ => put write.reading _ _
  | make =>
    obtain ⟨hsub, hnext⟩ := Correspondences.without_sublist a.pairs _ _ _
    exact hc.of_reading hf (Nat.le_of_eq hnext.symm) (fun _ hc => .inl (hsub.subset hc))
      fun _ _ _ _ _ => put ((hk.sound _).reading_add _) _ _
  | record =>
    refine hc.of_reading hf (Nat.le_succ _) (fun c hc => ?_) fun _ _ _ _ _ => rfl
    refine (List.mem_append.mp hc).imp_right fun hc => ?_
    rw [List.mem_singleton.mp hc]
    exact Nat.le_refl _

namespace Scheme

variable {k : Scheme} {d : Direction} {V : CorrespondenceId → Prop} {w w' : State}
  {c₀ : Correspondence} {s : Side}

theorem Went.calm (hw : k.Went d V w w') (h : k.Consistent w.graphs w.pairs)
    (ht : ∀ s, k.rules.UniqueTypes s) (hu : ∀ s, k.rules.UniqueAttributes s)
    (hc : k.Calm c₀ s w.store) : k.Calm c₀ s w'.store :=
  Acts.keep (P := fun a => k.Calm c₀ s a) hw.acts h (fun _ _ hk hact => hact.calm hk ht hu) hc

theorem Calm.freed (hc : k.Calm c₀ s w.store) (hf : Frees d w w') : k.Calm c₀ s w'.store :=
  hc.of_reading (hf.follows s) (Nat.le_of_eq hf.pairs_next.symm)
    (fun _ h => .inl (hf.entries.subset h)) fun _ _ _ _ _ => hf.reading s _ _

theorem calm_syncRoots (h : k.Consistent w.graphs w.pairs) (ht : ∀ s, k.rules.UniqueTypes s)
    (hu : ∀ s, k.rules.UniqueAttributes s) (hc : k.Calm c₀ s w.store) :
    wp (syncRoots k.rules d k.rootRule) (fun _ w' => k.Calm c₀ s w'.store)
      (fun _ w' => k.Calm c₀ s w'.store) w := by
  refine wp_syncRoots_paired h (fun _ _ => hc) fun r c w₁ hp => ?_
  have hpaired := hp.preserves h.sound
  have hc₁ : k.Calm c₀ s w₁.store := by
    refine hc.of_reading (hpaired.follows s) hp.next_le hp.fresh fun _ _ _ _ _ => ?_
    have hg : w₁.store.graphs = w.store.graphs := hp.graphs
    rw [hg]
  refine wp_run_purged hp.consistent hp.entry hp.anchor hp.rule fun w₂ hpurged => ?_
  have hc₂ := hc₁.freed hpurged.frees
  have h₂ := hpurged.consistent
  exact wp_mono hpurged.traces (fun _ _ hw => hw.calm h₂ ht hu hc₂) fun _ _ hw =>
    hw.1.calm h₂ ht hu hc₂

theorem calm_carry (h : k.Consistent w.graphs w.pairs) (ht : ∀ s, k.rules.UniqueTypes s)
    (hu : ∀ s, k.rules.UniqueAttributes s) (hc : k.Calm c₀ s w.store) {side : Side}
    (hside : side ∈ d.authorities) (c : Change) :
    wp (carry k.rules d side c) (fun _ w' => k.Calm c₀ s w'.store)
      (fun _ w' => k.Calm c₀ s w'.store) w := by
  let w₀ : State := { w with visited := [] }
  have h₀ : k.Consistent w₀.graphs w₀.pairs := h
  have hc₀ : k.Calm c₀ s w₀.store := hc
  refine wp_carry_traced h hside (fun _ hw _ => hw.calm h₀ ht hu hc₀)
    (fun _ _ hw _ _ => hw.calm h₀ ht hu hc₀) ?_
  rintro _ _ target _ w' ⟨w₁, deleted, hf, _, rfl, _⟩
  have hc₁ : k.Calm c₀ s w₁.store := hc₀.freed hf
  exact hc₁

theorem Calm.releaseDeleted (hc : k.Calm c₀ s w.store) (h : k.Consistent w.graphs w.pairs) :
    k.Calm c₀ s (Walk.releaseDeleted w).store := by
  obtain ⟨hgraphs, hnext, hsub, _⟩ := releaseDeleted_spec w
  have hg : (Walk.releaseDeleted w).store.graphs = w.store.graphs := hgraphs
  refine hc.of_reading ?_ (Nat.le_of_eq hnext.symm) (fun _ h => .inl (hsub.subset h))
    fun _ _ _ _ _ => by rw [hg]
  rw [hg]
  exact (h.sound s).refl

end Scheme

end GraphSync
