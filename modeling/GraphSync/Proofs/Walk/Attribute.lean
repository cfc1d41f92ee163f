import GraphSync.Proofs.Walk.Added

namespace GraphSync

open Walk

/-- A written attribute has no effect where its bindings are left as they are. -/
theorem Scheme.repeat_carryAttribute {k : Scheme} {d : Direction} {w : State} {s : Side}
    {e : ElementId} {name : AttributeName} (h : k.Consistent w.graphs w.pairs)
    (hstays : (w.graphs.on s).contains e = true → ∀ c ∈ w.pairs.entries, c.element s = e →
      ∀ r, k.rules.rule? c.rule = some r → ∀ bi ∈ r.bindingsOn s name,
        (∀ t, (w.graphs.on t).contains (c.element t) = true) ∧ Stays d [] w c bi) :
    wp (carryAttribute k.rules d s e name) (fun conflicted w' => conflicted = false ∧ w' = w)
      (fun _ _ => False) w := by
  rw [carryAttribute, wp_bind, wp_graph, wp_ite]
  split
  · exact ⟨rfl, rfl⟩
  rename_i hlive
  replace hlive : (w.graphs.on s).contains e = true := by simpa using hlive
  rw [wp_bind, wp_pairs, wp_bind]
  refine wp_imp (wp_mapM_all (I := (· = w)) (P := (· = false)) (fun id hid w₁ hw₁ => ?_) rfl)
    fun bs w₁ hend => ?_
  · subst hw₁
    refine wp_eachPair h rfl hid fun c hc hi he r hr => ?_
    rw [wp_bind]
    refine wp_imp
      (wp_mapM_all (I := (· = w₁)) (P := (· = .unchanged)) (fun bi hbi w₂ hw₂ => ?_) rfl)
      fun os w₂ hw₂ => ?_
    · subst hw₂
      obtain ⟨hl, hstay⟩ := hstays hlive c hc he r hr bi hbi
      obtain ⟨hkeep, hremembered⟩ := hstay.resolve_right fun hconflict => by cases hconflict.2
      rw [← hi]
      exact wp_applyBinding_kept h.listed hl hc hkeep hremembered r.name
    · refine ⟨?_, hw₂.2⟩
      simpa using fun hin => absurd (hw₂.1 _ hin) (by simp)
  · refine ⟨?_, hend.2⟩
    simpa using fun hin => absurd (hend.1 _ hin) (by simp)

namespace Pass

variable {p : Pass} {w₀ w w' : State} {c c' : Correspondence} {r : Rule} {bi : Binding × Nat}
  {e : ElementId} {name : AttributeName}

/-- The walk has come from `w₀`, and no pair was recorded or dropped since. -/
structure Setting (p : Pass) (w₀ w : State) : Prop where
  outset : p.Outset w₀
  went : p.scheme.Went p.direction (fun _ => True) w₀ w
  source : w.graphs.on p.source = w₀.graphs.on p.source
  next : w.pairs.next = w₀.pairs.next
  kept : ∀ c ∈ w₀.pairs.entries, ∃ c' ∈ w.pairs.entries, c'.core = c.core

/-- The binding was carried over for the pair with that handle, if its rule has it. -/
def Served (p : Pass) (w : State) (id : CorrespondenceId) (bi : Binding × Nat) : Prop :=
  ∀ c ∈ w.pairs.entries, c.id = id → ∀ r, p.rules.rule? c.rule = some r →
    bi ∈ r.numbered → p.Carried w c bi

namespace Setting

variable (h : p.Setting w₀ w)

include h

/-- Every pair is one that was there at the start. -/
theorem exists_core (hc : c ∈ w.pairs.entries) :
    ∃ c₀ ∈ w₀.pairs.entries, c.core = c₀.core :=
  h.went.acts.entry_of_old h.outset.consistent hc (h.next ▸ h.went.consistent.listed.bounded c hc)

/-- A binding is carried over for one pair, and those that were carried over before are left as they
are. -/
theorem applyBinding (hattributes : p.rules.UniqueAttributes p.target) (hc : c ∈ w.pairs.entries)
    (hr : p.rules.rule? c.rule = some r) (hbi : bi ∈ r.numbered) :
    wp (applyBinding p.direction r.name c.id c.elements bi.1 bi.2)
      (fun _ w' => p.Setting w₀ w' ∧ p.Served w' c.id bi ∧
      ∀ id bi', p.Served w id bi' → p.Served w' id bi') (fun _ _ => True) w := by
  obtain ⟨hmem, hname⟩ := RuleSet.mem_of_rule? hr
  have hk := h.went.consistent
  have hco := p.coherent_of_acts h.went.acts h.outset.consistent h.outset.coherent
  have htraces :=
    Scheme.traces_applyBinding (V := (· = c.id)) (P := fun _ => True) (d := p.direction) hk
    (fun hlive => .of_entry hk hc hlive hr) (fun _ _ => trivial) (hname ▸ hr) rfl hbi
  refine wp_mono (wp_and htraces (p.sets_applyBinding hk.listed hc r.name)) (fun _ w' hend => ?_)
    fun _ _ _ => trivial
  obtain ⟨hwent, hsets⟩ := hend
  refine ⟨⟨h.outset, h.went.later hwent, hsets.source.trans h.source, hsets.next.trans h.next,
    fun a ha => ?_⟩, fun c' hc' hid _ _ _ => ?_,
    fun id bi' hserved c' hc' hid r' hr' hbi' => ?_⟩
  · obtain ⟨a₁, ha₁, hcore₁⟩ := h.kept a ha
    obtain ⟨a₂, ha₂, hcore₂⟩ := hsets.kept a₁ ha₁
    exact ⟨a₂, ha₂, hcore₂.trans hcore₁⟩
  · exact (hsets.entry c' hc' hid).2.1
  by_cases hsame : c'.id = c.id
  · have hrule := Correspondence.rule_eq_of_core (hsets.entry c' hc' hsame).1
    rw [hrule, hr] at hr'
    cases hr'
    exact hsets.carried (hattributes r hmem) hbi hbi'
      (hserved c hc (hsame.symm.trans hid) r hr hbi') hc' hsame
  · obtain ⟨hold, hkeeps⟩ := p.keeps_of_acts hwent.acts hk hco hc'
      (hsets.next ▸ hwent.consistent.listed.bounded c' hc') fun hv => hv.elim hsame fun hin =>
        hin.2 (hsets.visited ▸ hin.1)
    exact (hserved c' hold hid r' hr' hbi').keeps hkeeps

end Setting

/-- When a written attribute was carried over, its bindings are left as they are. -/
theorem Outset.carryAttribute (h : p.Outset w) (hattributes : p.rules.UniqueAttributes p.target) :
    wp (carryAttribute p.rules p.direction p.source e name) (fun _ w' => p.Setting w w' ∧
      ((w'.graphs.on p.source).contains e = true → ∀ c ∈ w'.pairs.entries,
        c.element p.source = e →
        ∀ r, p.rules.rule? c.rule = some r → ∀ bi ∈ r.bindingsOn p.source name,
          p.Carried w' c bi))
        (fun _ _ => True)
      w := by
  have start : p.Setting w w := ⟨h, .refl h.consistent, rfl, rfl, fun c hc => ⟨c, hc, rfl⟩⟩
  rw [Walk.carryAttribute, wp_bind, wp_graph, wp_ite]
  split
  · rename_i hdead
    exact ⟨start, fun hlive => by simp [hlive] at hdead⟩
  let G (id : CorrespondenceId) (w' : State) : Prop :=
    ∀ c ∈ w.pairs.entries, c.id = id → ∀ r,
    p.rules.rule? c.rule = some r → ∀ bi ∈ r.bindingsOn p.source name, p.Served w' id bi
  rw [wp_bind, wp_pairs, wp_bind]
  refine wp_imp (wp_mapM_each (I := p.Setting w) (G := G) (fun id hid w₁ h₁ => ?_) start)
    fun _ w' hend => ?_
  · refine h₁.went.wp_eachPair h.consistent hid (fun hgone => ?_)
      fun c hc hi _ r hr c' hc' hcore => ?_
    · exact ⟨h₁, fun _ _ _ _ _ _ _ a ha hia => absurd hia (hgone a ha), fun _ hg => hg⟩
    rw [wp_bind]
    refine wp_imp (wp_mapM_each
      (I := fun w₂ => p.Setting w w₂ ∧ ∀ id' bi', p.Served w₁ id' bi' →
        p.Served w₂ id' bi')
      (G := fun bi w₂ => p.Served w₂ id bi)
      (fun bi hbi w₂ hw₂ => ?_) ⟨h₁, fun _ _ hs => hs⟩) fun _ w₂ hw₂ => ?_
    · obtain ⟨h₂, hkept⟩ := hw₂
      -- the entry of the pair may remember other values by now
      obtain ⟨c₂, hc₂, hcore₂⟩ := h₂.kept c hc
      have hspec :=
        h₂.applyBinding hattributes hc₂ ((Correspondence.rule_eq_of_core hcore₂).symm ▸ hr)
        (Rule.mem_bindingsOn.mp hbi).1
      rw [Correspondence.elements_eq_of_core hcore₂, ← Correspondence.elements_eq_of_core hcore,
        Correspondence.id_eq_of_core hcore₂, hi] at hspec
      refine wp_imp hspec fun _ w₃ hw₃ => ?_
      obtain ⟨h₃, hserved, hkept'⟩ := hw₃
      exact ⟨⟨h₃, fun id' bi' hs => hkept' id' bi' (hkept id' bi' hs)⟩,
        hserved, hkept' id⟩
    · obtain ⟨⟨h₂, hkept⟩, hserved⟩ := hw₂
      refine ⟨h₂, fun a ha hia r' hr' => ?_, fun id' hg a ha hia r' hr' bi hbi => ?_⟩
      · obtain rfl := h.coherent.listed.eq_of_id ha hc (hia.trans hi.symm)
        obtain rfl : r = r' := Option.some.inj (hr.symm.trans hr')
        exact hserved
      · exact hkept id' bi (hg a ha hia r' hr' bi hbi)
  · obtain ⟨h', hserved⟩ := hend
    refine ⟨h', fun _ c' hc' he r hr bi hbi => ?_⟩
    obtain ⟨c, hc, hcore⟩ := h'.exists_core hc'
    rw [Correspondence.element_eq_of_core hcore] at he
    have hid : c.id ∈ (w.pairs.ofElement p.source e).map (·.id) :=
      Correspondences.mem_handles.mpr ⟨c, hc, he, rfl⟩
    have hr₀ : p.rules.rule? c.rule = some r := Correspondence.rule_eq_of_core hcore ▸ hr
    exact hserved c.id hid c hc rfl r hr₀ bi hbi c' hc' (Correspondence.id_eq_of_core hcore) r hr
      (Rule.mem_bindingsOn.mp hbi).1

end Pass

end GraphSync
