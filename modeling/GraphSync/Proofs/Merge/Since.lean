import GraphSync.Proofs.Merge.Progress
import GraphSync.Proofs.Rule.Settled

namespace GraphSync

namespace Binding

variable {b : Binding} {shadow? : Option Shadow} {values : Sided Value}

/-- The values of a binding, and what is remembered of them, after it was applied once. -/
def outcome (b : Binding) (shadow? : Option Shadow) (values : Sided Value) :
    Sided Value × Option Shadow :=
  match b.verdict .twoWay shadow? values with
  | .keep inStep => (values, if inStep then some values else shadow?)
  | .copy source => (b.copied values source, some (b.copied values source))
  | .conflict => (values, shadow?)

theorem outcome_of_keep {inStep : Bool} (h : b.verdict .twoWay shadow? values = .keep inStep) :
    b.outcome shadow? values = (values, if inStep then some values else shadow?) := by
  rw [outcome, h]

theorem outcome_of_copy {source : Side} (h : b.verdict .twoWay shadow? values = .copy source) :
    b.outcome shadow? values = (b.copied values source, some (b.copied values source)) := by
  rw [outcome, h]

theorem outcome_of_conflict (h : b.verdict .twoWay shadow? values = .conflict) :
    b.outcome shadow? values = (values, shadow?) := by
  rw [outcome, h]

end Binding

namespace Merge

open Walk

variable {k : Scheme} {V : CorrespondenceId → Prop} {w₀ w w' : State} {i : CorrespondenceId}
  {path path' done done' : List CorrespondenceId} {pending pending' : List (Binding × Nat)}
  {c c' : Correspondence} {r : Rule} {b : Binding} {index : Nat} {bi : Binding × Nat}
  {A A' : Correspondence → Binding × Nat → Prop}

/-- What is to be done about a binding of a pair. -/
def verdict (w : State) (c : Correspondence) (bi : Binding × Nat) : Verdict :=
  bi.1.verdict .twoWay (w.shadow? c.id bi.2) (w.values c.elements bi.1)

/-- What became of a binding of a pair that was applied once since `w₀`. -/
structure Settled (w₀ w : State) (c : Correspondence) (bi : Binding × Nat) : Prop where
  outcome : (w.values c.elements bi.1, c.shadow? bi.2) =
    bi.1.outcome (w₀.shadow? c.id bi.2) (w₀.values c.elements bi.1)
  reported : verdict w₀ c bi = .conflict →
    w₀.conflict c.rule c.id c.elements bi.1 ∈ w.report.conflicts

namespace Settled

theorem keeps (h : Settled w₀ w c bi) (hv : w'.values c.elements bi.1 = w.values c.elements bi.1)
    (hs : c'.shadow? bi.2 = c.shadow? bi.2) (hcore : c'.core = c.core)
    (hc : w.report.conflicts ⊆ w'.report.conflicts) : Settled w₀ w' c' bi := by
  have hel := Correspondence.elements_eq_of_core hcore
  have hid := Correspondence.id_eq_of_core hcore
  refine ⟨?_, ?_⟩
  · rw [hel, hid, hv, hs, h.outcome]
  · rw [verdict, hel, hid, Correspondence.rule_eq_of_core hcore]
    exact fun he => hc (h.reported he)

/-- Values in conflict are left as they were, and so is what is remembered of them. -/
theorem of_conflict (h : Settled w₀ w c bi) (hv : verdict w₀ c bi = .conflict) :
    w.values c.elements bi.1 = w₀.values c.elements bi.1 ∧
    c.shadow? bi.2 = w₀.shadow? c.id bi.2 :=
  Prod.ext_iff.mp (h.outcome.trans (Binding.outcome_of_conflict hv))

/-- A binding that was applied need not be applied again. -/
theorem bindingDone (h : Settled w₀ w c bi) : BindingDone w c bi := by
  cases hv : verdict w₀ c bi with
  | keep inStep =>
    obtain ⟨hvalues, hshadow⟩ := Prod.ext_iff.mp (h.outcome.trans (Binding.outcome_of_keep hv))
    obtain rfl := Binding.inStep_of_verdict hv
    simp only at hvalues hshadow
    refine .inr ⟨fun ho => ?_, fun hin => ?_⟩
    · cases hin : bi.1.inStep (w₀.values c.elements bi.1) with
      | true =>
        rw [hin, if_pos rfl, ← hvalues] at hshadow
        rw [hshadow]
        exact bi.1.verdict_remembered ho
      | false =>
        rw [hin, if_neg Bool.false_ne_true] at hshadow
        rw [hshadow, hvalues]
        exact hv
    · rw [hvalues] at hin ⊢
      rwa [hin, if_pos rfl] at hshadow
  | copy source =>
    obtain ⟨hvalues, hshadow⟩ := Prod.ext_iff.mp (h.outcome.trans (Binding.outcome_of_copy hv))
    simp only at hvalues hshadow
    rw [← hvalues] at hshadow
    refine .inr ⟨fun ho => ?_, fun _ => hshadow⟩
    rw [hshadow]
    exact bi.1.verdict_remembered ho
  | conflict =>
    obtain ⟨hvalues, hshadow⟩ := h.of_conflict hv
    refine .inl ⟨?_, ?_⟩
    · rw [hvalues, hshadow]
      exact hv
    · rw [State.conflict, hvalues]
      exact h.reported hv

end Settled

/-- `A` tells which bindings were applied since `w₀`. -/
structure Since (w₀ : State) (A : Correspondence → Binding × Nat → Prop)
    (w : State) : Prop where
  listed : w₀.pairs.Listed
  next_le : w₀.pairs.next ≤ w.pairs.next
  old : ∀ c ∈ w.pairs.entries, c.id.index < w₀.pairs.next → ∃ c₀ ∈ w₀.pairs.entries,
    c.core = c₀.core
  settled : ∀ c ∈ w.pairs.entries, ∀ bi, A c bi → Settled w₀ w c bi
  reading : ∀ s x name, (w.graphs.on s).reading x name = (w₀.graphs.on s).reading x name ∨
    ∃ c ∈ w.pairs.entries, ∃ bi, A c bi ∧ c.element s = x ∧
      bi.1.attributes.on s = name ∧ verdict w₀ c bi = .copy s.other
  remembered : ∀ c ∈ w.pairs.entries, ∀ index, c.shadow? index = w₀.shadow? c.id index ∨
    ∃ b, A c (b, index)
  reported : ∀ x ∈ w.report.conflicts, ∃ c ∈ w.pairs.entries, ∃ bi, A c bi ∧
    verdict w₀ c bi = .conflict ∧ x = w₀.conflict c.rule c.id c.elements bi.1

theorem Since.congr (h : Since w₀ A w)
    (hA : ∀ c ∈ w.pairs.entries, ∀ bi, A' c bi ↔ A c bi) : Since w₀ A' w where
  listed := h.listed
  next_le := h.next_le
  old := h.old
  settled c hc bi ha := h.settled c hc bi ((hA c hc bi).mp ha)
  reading s x name := (h.reading s x name).imp_right fun ⟨c, hc, bi, ha, hrest⟩ =>
    ⟨c, hc, bi, (hA c hc bi).mpr ha, hrest⟩
  remembered c hc index :=
    (h.remembered c hc index).imp_right fun ⟨b, ha⟩ => ⟨b, (hA c hc _).mpr ha⟩
  reported x hx := by
    obtain ⟨c, hc, bi, ha, hrest⟩ := h.reported x hx
    exact ⟨c, hc, bi, (hA c hc bi).mpr ha, hrest⟩

/-- A binding of a pair was applied: its rule was, and the binding is not one of those of the
innermost pair that are still to be applied. -/
structure Handled (k : Scheme) (path done : List CorrespondenceId) (pending : List (Binding × Nat))
    (c : Correspondence) (bi : Binding × Nat) : Prop where
  listed : c.id ∈ path ++ done
  numbered : ∃ r, k.rules.rule? c.rule = some r ∧ bi ∈ r.numbered
  past : path.head? = some c.id → bi ∉ pending

namespace Handled

theorem of_core (h : Handled k path done pending c bi) (hcore : c'.core = c.core) :
    Handled k path done pending c' bi := by
  refine ⟨?_, ?_, ?_⟩
  · rw [Correspondence.id_eq_of_core hcore]
    exact h.listed
  · rw [Correspondence.rule_eq_of_core hcore]
    exact h.numbered
  · rw [Correspondence.id_eq_of_core hcore]
    exact h.past

theorem mono (h : Handled k path done pending c bi) (hp : pending' ⊆ pending) :
    Handled k path done pending' c bi :=
  ⟨h.listed, h.numbered, fun he hin => h.past he (hp hin)⟩

theorem mem_numbered (h : Handled k path done pending c bi) (hr : k.rules.rule? c.rule = some r) :
    bi ∈ r.numbered := by
  obtain ⟨r', hr', hbi⟩ := h.numbered
  rwa [Option.some.inj (hr.symm.trans hr')]

end Handled

/-- A binding that was not applied has the values of the start, and so has what is remembered of
them. -/
theorem Since.untouched (h : Since w₀ (Handled k path done pending) w)
    (hapart : ∀ s, w.store.Apart s) (hu : ∀ s, k.rules.UniqueAttributes s)
    (hc : c ∈ w.pairs.entries) (hr : k.rules.rule? c.rule = some r) (hbi : bi ∈ r.numbered)
    (hno : ¬ Handled k path done pending c bi) :
    w.values c.elements bi.1 = w₀.values c.elements bi.1 ∧
    c.shadow? bi.2 = w₀.shadow? c.id bi.2 := by
  have hvalue (s : Side) :
      (w.values c.elements bi.1).on s = (w₀.values c.elements bi.1).on s := by
    rw [State.values_on, State.values_on]
    refine (h.reading s _ _).resolve_right ?_
    rintro ⟨c', hc', bi', ha, he, hname, _⟩
    obtain rfl := hapart s c' hc' c hc he
    obtain rfl :=
      Rule.eq_of_attribute (hu s r (RuleSet.mem_of_rule? hr).1) (ha.mem_numbered hr) hbi hname
    exact hno ha
  refine ⟨Sided.ext (hvalue .left) (hvalue .right), (h.remembered c hc bi.2).resolve_right ?_⟩
  rintro ⟨b, ha⟩
  have he : (b, bi.2) = bi := Rule.eq_of_index (ha.mem_numbered hr) hbi rfl
  exact hno (he ▸ ha)

/-- What is written on behalf of the innermost pair leaves the bindings of the others alone. -/
theorem Since.write (h : Since w₀ (Handled k (i :: path) done pending) w)
    (ht : ∀ s, k.rules.UniqueTypes s) (hg : Grows k (· = i) w w')
    (hrec : ∀ id ∈ (i :: path) ++ done, ∃ c ∈ w.pairs.entries, c.id = id)
    (hp : pending' ⊆ pending) (hc : w.report.conflicts ⊆ w'.report.conflicts)
    (hown : ∀ c ∈ w'.pairs.entries, c.id = i → ∀ bi,
      Handled k (i :: path) done pending' c bi → Settled w₀ w' c bi)
    (hreading : ∀ s x name, (w'.graphs.on s).reading x name = (w.graphs.on s).reading x name ∨
      ∃ c ∈ w'.pairs.entries, ∃ bi, Handled k (i :: path) done pending' c bi ∧
        c.element s = x ∧ bi.1.attributes.on s = name ∧ verdict w₀ c bi = .copy s.other)
    (hremembered : ∀ c ∈ w'.pairs.entries, c.id = i → ∀ index,
      c.shadow? index = w₀.shadow? c.id index ∨
      ∃ b, Handled k (i :: path) done pending' c (b, index))
    (hreported : ∀ x ∈ w'.report.conflicts, x ∈ w.report.conflicts ∨
      ∃ c ∈ w'.pairs.entries, ∃ bi, Handled k (i :: path) done pending' c bi ∧
        verdict w₀ c bi = .conflict ∧ x = w₀.conflict c.rule c.id c.elements bi.1) :
    Since w₀ (Handled k (i :: path) done pending') w' := by
  have hl' := (hg.acts.consistent hg.consistent).listed
  -- a pair that was there and is not the innermost one
  have other {c' : Correspondence} (hc' : c' ∈ w'.pairs.entries) (hi : c'.id ≠ i)
      (hold : c'.id.index < w.pairs.next) :
      c' ∈ w.pairs.entries ∧ w.store.Keeps w'.store c' := by
    obtain ⟨c, hc, hcore⟩ := hg.acts.entry_of_old hg.consistent hc' hold
    have hid := Correspondence.id_eq_of_core hcore
    have hkeeps := hg.keeps ht hc (hid ▸ hi)
    obtain rfl := hl'.eq_of_id hc' hkeeps.entry hid
    exact ⟨hc, hkeeps⟩
  have still {c : Correspondence} {bi : Binding × Nat} (hc : c ∈ w.pairs.entries)
      (ha : Handled k (i :: path) done pending c bi) :
      ∃ c' ∈ w'.pairs.entries, c'.core = c.core ∧
        Handled k (i :: path) done pending' c' bi := by
    obtain ⟨c', hc', hcore⟩ := hg.kept hc
    exact ⟨c', hc', hcore, (ha.mono hp).of_core hcore⟩
  have hverdict {c c' : Correspondence} (hcore : c'.core = c.core) (bi : Binding × Nat) :
      verdict w₀ c' bi = verdict w₀ c bi := by
    rw [verdict, verdict, Correspondence.id_eq_of_core hcore,
      Correspondence.elements_eq_of_core hcore]
  refine ⟨h.listed, Nat.le_trans h.next_le (hg.acts.next_le hg.consistent), ?_, ?_, ?_, ?_, ?_⟩
  · intro c' hc' hold
    obtain ⟨c, hc, hcore⟩ :=
      hg.acts.entry_of_old hg.consistent hc' (Nat.lt_of_lt_of_le hold h.next_le)
    obtain ⟨c₀, hc₀, hcore₀⟩ := h.old c hc (Correspondence.id_eq_of_core hcore ▸ hold)
    exact ⟨c₀, hc₀, hcore.trans hcore₀⟩
  · intro c' hc' bi ha
    by_cases hi : c'.id = i
    · exact hown c' hc' hi bi ha
    · obtain ⟨c, hc₀, hid⟩ := hrec c'.id ha.listed
      obtain ⟨hm, hkeeps⟩ := other hc' hi (hid ▸ hg.consistent.listed.bounded c hc₀)
      have hhead : (i :: path).head? ≠ some c'.id := fun he => hi (Option.some.inj he).symm
      exact (h.settled c' hm bi ⟨ha.listed, ha.numbered, fun he => absurd he hhead⟩).keeps
        (hkeeps.values _) rfl rfl hc
  · intro s x name
    rcases hreading s x name with he | hwritten
    · rw [he]
      refine (h.reading s x name).imp_right ?_
      rintro ⟨c, hc, bi, ha, hx, hname, hcopy⟩
      obtain ⟨c', hc', hcore, ha'⟩ := still hc ha
      refine ⟨c', hc', bi, ha', ?_, hname, (hverdict hcore bi).trans hcopy⟩
      rw [Correspondence.element_eq_of_core hcore, hx]
    · exact .inr hwritten
  · intro c' hc' index
    by_cases hi : c'.id = i
    · exact hremembered c' hc' hi index
    · by_cases hold : c'.id.index < w.pairs.next
      · exact (h.remembered c' (other hc' hi hold).1 index).imp_right
          fun ⟨b, ha⟩ => ⟨b, ha.mono hp⟩
      · -- nothing is remembered of a new pair
        left
        have hnew : w.pairs.next ≤ c'.id.index := Nat.le_of_not_lt hold
        rw [hg.acts.shadow?_of_new hg.consistent hc' hnew hi,
          State.shadow?_of_le h.listed (Nat.le_trans h.next_le hnew)]
  · intro x hx
    rcases hreported x hx with hx | hnew
    · obtain ⟨c, hc, bi, ha, hv, rfl⟩ := h.reported x hx
      obtain ⟨c', hc', hcore, ha'⟩ := still hc ha
      refine ⟨c', hc', bi, ha', (hverdict hcore bi).trans hv, ?_⟩
      rw [Correspondence.id_eq_of_core hcore, Correspondence.elements_eq_of_core hcore,
        Correspondence.rule_eq_of_core hcore]
    · exact hnew

end Merge

end GraphSync
