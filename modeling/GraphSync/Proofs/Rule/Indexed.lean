import GraphSync.Config.Document
import GraphSync.Proofs.Rule.Search

namespace GraphSync

/-- Nothing that a rule names has an empty name. -/
structure Rule.Named (r : Rule) : Prop where
  name : r.name ≠ ""
  attributes : ∀ b ∈ r.bindings, ∀ s, b.attributes.on s ≠ ""
  roles : ∀ c ∈ r.children, ∀ s, c.roles.on s ≠ ""

theorem Rule.fault?_eq_none (r : Rule) : r.fault? = none ↔ r.Named := by
  have attributes :
      r.bindings.any (fun b => b.attributes.left = "" || b.attributes.right = "") = false ↔
      ∀ b ∈ r.bindings, ∀ s, b.attributes.on s ≠ "" := by
    simp [Side.forall_iff, Sided.on]
  have roles : r.children.any (fun c => c.roles.left = "" || c.roles.right = "") = false ↔
      ∀ c ∈ r.children, ∀ s, c.roles.on s ≠ "" := by
    simp [Side.forall_iff, Sided.on]
  have hnamed : r.Named ↔ r.name ≠ "" ∧
      (∀ b ∈ r.bindings, ∀ s, b.attributes.on s ≠ "") ∧
      ∀ c ∈ r.children, ∀ s, c.roles.on s ≠ "" :=
        ⟨fun h => ⟨h.1, h.2, h.3⟩, fun h => ⟨h.1, h.2.1, h.2.2⟩⟩
  rw [hnamed, ← attributes, ← roles, fault?]
  split
  · simp [*]
  · split
    · simp [*]
    · split <;> simp [*]

namespace RuleSet

/-- Neither the name nor the pair of types of `r` is used. -/
def Fresh (rs : List Rule) (r : Rule) : Prop :=
  ∀ r' ∈ rs, r'.name ≠ r.name ∧ r'.types ≠ r.types

variable {rs rs' : RuleSet} {r : Rule}

theorem clashes_iff : rs.Clashes r ↔ ¬ Fresh rs.rules r := by
  simp only [Clashes, Fresh, List.mem_map, not_forall, not_and_or, not_not]
  constructor
  · rintro (⟨r', hr', he⟩ | ⟨r', hr', he⟩)
    · exact ⟨r', hr', .inl he⟩
    · exact ⟨r', hr', .inr he⟩
  · rintro ⟨r', hr', he | he⟩
    · exact .inl ⟨r', hr', he⟩
    · exact .inr ⟨r', hr', he⟩

/-- What comes of a registration: a clash, else a fault of the rule itself, else one more rule. -/
inductive Registers (rs : RuleSet) (r : Rule) : Except RuleError RuleSet → Prop where
  | duplicate (clash : ¬ Fresh rs.rules r) : Registers rs r (.error (.duplicate r.name r.types))
  | invalid (fresh : Fresh rs.rules r) {fault : Rule.Fault} (found : r.fault? = some fault) :
    Registers rs r (.error (.invalid r.name fault))
  | accepted (fresh : Fresh rs.rules r) (named : r.Named) {rs' : RuleSet}
    (rules : rs'.rules = rs.rules ++ [r]) :
    Registers rs r (.ok rs')

theorem registers (rs : RuleSet) (r : Rule) : rs.Registers r (rs.register r) := by
  unfold register
  split
  · rename_i hclash
    exact .duplicate (clashes_iff.mp hclash)
  · rename_i hclash
    have hfresh : Fresh rs.rules r := not_not.mp fun h => hclash (clashes_iff.mpr h)
    split
    · rename_i fault hfault
      exact .invalid hfresh hfault
    · rename_i hfault
      exact .accepted hfresh (r.fault?_eq_none.mp hfault) rfl

namespace Indexed

variable {t t' : Indexed}

/-- The tables hold the list `rs`. -/
structure Represents (t : Indexed) (rs : RuleSet) : Prop where
  order : t.order = rs.rules.map Rule.name
  byName : ∀ name, t.byName[name]? = rs.rule? name
  byTypes : ∀ types, t.byTypes[types]? = (rs.ruleFor? types).map Rule.name
  size : t.byName.size = rs.rules.length

/-- A registration on both: the same answer, and the tables hold the list afterwards. -/
inductive Agree (rs : RuleSet) :
    Except RuleError Unit × Indexed → Except RuleError RuleSet → Prop where
  | accepted {t : Indexed} {rs' : RuleSet} (h : t.Represents rs') : Agree rs (.ok (), t) (.ok rs')
  | refused (e : RuleError) {t : Indexed} (h : t.Represents rs) : Agree rs (.error e, t) (.error e)

namespace Represents

theorem empty : Represents {} ∅ := by
  refine ⟨rfl, fun name => ?_, fun types => ?_, rfl⟩
  · exact Std.HashMap.getElem?_empty
  · exact Std.HashMap.getElem?_empty

theorem rules (h : t.Represents rs) : t.rules = rs.rules := by
  rw [Indexed.rules, h.order, List.filterMap_map]
  refine (List.filterMap_congr (g := some) fun r hr => ?_).trans List.filterMap_some
  rw [Function.comp_apply, h.byName, rule?_of_mem hr]

/-- A pair of types leads to the name of its rule, and the name to the rule. -/
theorem byTypes_bind (h : t.Represents rs) (types : Sided TypeName) :
    t.byTypes[types]?.bind (t.byName[·]?) = rs.ruleFor? types := by
  rw [h.byTypes]
  cases hr : rs.ruleFor? types with
  | none => rfl
  | some r => rw [Option.map_some, Option.bind_some, h.byName, rule?_of_mem (mem_of_ruleFor? hr).1]

theorem contains_byName (h : t.Represents rs) (name : RuleName) :
    t.byName.contains name = (rs.rule? name).isSome := by
  rw [Std.HashMap.contains_eq_isSome_getElem?, h.byName]

theorem contains_byTypes (h : t.Represents rs) (types : Sided TypeName) :
    t.byTypes.contains types = (rs.ruleFor? types).isSome := by
  rw [Std.HashMap.contains_eq_isSome_getElem?, h.byTypes, Option.isSome_map]

theorem rule (h : t.Represents rs) (name : RuleName) : t.rule name = rs.rule name := by
  rw [Indexed.rule, h.byName]
  rfl

theorem ruleFor (h : t.Represents rs) (types : Sided TypeName) :
    t.ruleFor types = rs.ruleFor types := by
  rw [Indexed.ruleFor, h.byTypes_bind]
  rfl

theorem missing (h : t.Represents rs) : t.missing = rs.missing := by
  have hgap (c : Child) : (!t.byTypes.contains c.types) = (rs.ruleFor? c.types).isNone := by
    rw [h.contains_byTypes, Option.not_isSome]
  rw [Indexed.missing, h.rules]
  simp only [hgap]
  rfl

/-- The tables know of a clash. -/
theorem clash_iff (h : t.Represents rs) (r : Rule) :
    (t.byName.contains r.name || t.byTypes.contains r.types) = true ↔ ¬ Fresh rs.rules r := by
  rw [h.contains_byName, h.contains_byTypes, Bool.or_eq_true, rule?, ruleFor?, List.find?_isSome,
    List.find?_isSome]
  simp only [Fresh, not_forall, not_and_or, not_not, decide_eq_true_eq]
  constructor
  · rintro (⟨r', hr', he⟩ | ⟨r', hr', he⟩)
    · exact ⟨r', hr', .inl he⟩
    · exact ⟨r', hr', .inr he⟩
  · rintro ⟨r', hr', he | he⟩
    · exact .inl ⟨r', hr', he⟩
    · exact .inr ⟨r', hr', he⟩

/-- A rule whose name and pair of types are not used is entered in all tables. -/
theorem insert (h : t.Represents rs) (hfresh : Fresh rs.rules r)
    (hrules : rs'.rules = rs.rules ++ [r]) :
    Represents
      ⟨t.byName.insert r.name r, t.byTypes.insert r.types r.name, t.order ++ [r.name]⟩ rs' := by
  have hname : rs.rule? r.name = none :=
    List.find?_eq_none.mpr fun r' hr' => by simpa using (hfresh r' hr').1
  have htypes : rs.ruleFor? r.types = none :=
    List.find?_eq_none.mpr fun r' hr' => by simpa using (hfresh r' hr').2
  refine ⟨?_, fun name => ?_, fun types => ?_, ?_⟩
  · rw [hrules, h.order, List.map_append]
    rfl
  · have happend :
        rs'.rule? name = (rs.rule? name).or (if r.name = name then some r else none) := by
      simp [rule?, hrules, List.find?_append, List.find?_singleton]
    rw [Std.HashMap.getElem?_insert, happend, h.byName]
    by_cases hn : r.name = name
    · subst hn
      simp [hname]
    · simp [hn]
  · have happend :
        rs'.ruleFor? types = (rs.ruleFor? types).or (if r.types = types then some r else none) := by
      simp [ruleFor?, hrules, List.find?_append, List.find?_singleton]
    rw [Std.HashMap.getElem?_insert, happend, h.byTypes]
    by_cases ht : r.types = types
    · subst ht
      simp [htypes]
    · simp [ht]
  · have hnew : r.name ∉ t.byName := by
      rw [Std.HashMap.mem_iff_contains, h.contains_byName, hname]
      exact Bool.false_ne_true
    rw [Std.HashMap.size_insert, if_neg hnew, h.size, hrules, List.length_append,
      List.length_singleton]

theorem register (h : t.Represents rs) (r : Rule) : Agree rs (t.register r) (rs.register r) := by
  have hregisters := rs.registers r
  unfold Indexed.register
  generalize rs.register r = answer at hregisters
  cases hregisters with
  | duplicate hclash =>
    rw [if_pos ((h.clash_iff r).mpr hclash)]
    exact .refused _ h
  | invalid hfresh hfault =>
    rw [if_neg fun hclash => (h.clash_iff r).mp hclash hfresh, hfault]
    exact .refused _ h
  | accepted hfresh hnamed hrules =>
    rw [if_neg fun hclash => (h.clash_iff r).mp hclash hfresh, r.fault?_eq_none.mpr hnamed]
    exact .accepted (h.insert hfresh hrules)

/-- After any registrations the tables hold the rules that were accepted. -/
theorem registerAll (h : t.Represents rs) (calls : List Rule) : ∃ rs' : RuleSet,
    (t.registerAll calls).2.Represents rs' ∧
    rs'.rules = rs.rules ++ accepted (t.registerAll calls).1 := by
  induction calls generalizing t rs with
  | nil => exact ⟨rs, h, (List.append_nil _).symm⟩
  | cons r calls ih =>
    have hagree := h.register r
    have hregisters := rs.registers r
    simp only [Indexed.registerAll]
    generalize t.register r = answer, rs.register r = answer' at hagree hregisters
    cases hagree with
    | refused e h' => exact ih h'
    | accepted h' =>
      cases hregisters with
      | accepted _ _ hrules =>
        obtain ⟨rs', hrs', heq⟩ := ih h'
        refine ⟨rs', hrs', ?_⟩
        rw [heq, hrules, List.append_assoc]
        rfl

end Represents

/-- Every look-up answers as a scan of the rules, which are listed in the order of their
registration. -/
structure Scans (t : Indexed) (rs : List Rule) : Prop where
  rules : t.rules = rs
  size : t.size = rs.length
  contains : ∀ name, t.contains name = rs.any (·.name = name)
  rule : ∀ name, t.rule name = match rs.find? (·.name = name) with
    | some r => .ok r
    | none => .error (.unknown name)
  ruleFor : ∀ types, t.ruleFor types = match rs.find? (·.types = types) with
    | some r => .ok r
    | none => .error (.noRule types)
  ruleFrom : ∀ s this that, t.ruleFrom s this that =
    match rs.find? (fun r => r.types.on s = this ∧ r.types.on s.other = that) with
    | some r => .ok r
    | none => .error (.noRule (s.arrange this that))
  missing : t.missing = rs.flatMap fun r =>
    (r.children.filter fun c => ∀ r' ∈ rs, r'.types ≠ c.types).map fun c => (r.name, c.types)

/-- What a registration answers: it succeeds exactly for a rule whose name and types are not used
and that names everything; what is used is reported before what has no name. A rule that is refused
changes nothing. -/
structure Decides (t : Indexed) (rs : List Rule) (r : Rule) : Prop where
  accepted : (t.register r).1 = .ok () ↔ Fresh rs r ∧ r.Named
  duplicate : ¬ Fresh rs r → (t.register r).1 = .error (.duplicate r.name r.types)
  invalid : Fresh rs r → ¬ r.Named → ∃ fault,
    (t.register r).1 = .error (.invalid r.name fault)
  refused : (t.register r).1 ≠ .ok () → (t.register r).2 = t

theorem register_refused (t : Indexed) (r : Rule) (h : (t.register r).1 ≠ .ok ()) :
    (t.register r).2 = t := by
  unfold register at h ⊢
  split
  · rfl
  · split
    · rfl
    · rename_i hclash _ hfault
      rw [if_neg hclash, hfault] at h
      exact absurd rfl h

theorem Represents.scans (h : t.Represents rs) : t.Scans rs.rules where
  rules := h.rules
  size := h.size
  contains name := by
    rw [Indexed.contains, h.contains_byName, Bool.eq_iff_iff, rule?, List.find?_isSome,
      List.any_eq_true]
  rule name := h.rule name
  ruleFor types := h.ruleFor types
  ruleFrom s this that := by
    have hpair (r : Rule) : decide (r.types.on s = this ∧ r.types.on s.other = that) =
        decide (r.types = s.arrange this that) := by
      rw [decide_eq_decide]
      constructor
      · rintro ⟨rfl, rfl⟩
        exact (Sided.arrange_on r.types s).symm
      · intro he
        rw [he, Sided.on_arrange_self, Sided.on_arrange_other]
        exact ⟨rfl, rfl⟩
    simp only [hpair]
    exact h.ruleFor (s.arrange this that)
  missing := by
    have hgap (c : Child) :
        (rs.ruleFor? c.types).isNone = decide (∀ r' ∈ rs.rules, r'.types ≠ c.types) := by
      rw [Bool.eq_iff_iff, Option.isNone_iff_eq_none, ruleFor?, List.find?_eq_none]
      simp
    rw [h.missing, RuleSet.missing]
    simp only [hgap]

theorem Represents.answer (h : t.Represents rs) (r : Rule) :
    (t.register r).1 = (rs.register r).map fun _ => () := by
  have hagree := h.register r
  generalize t.register r = answer, rs.register r = answer' at hagree ⊢
  cases hagree <;> rfl

theorem Represents.decides (h : t.Represents rs) (r : Rule) : t.Decides rs.rules r := by
  have hanswer := h.answer r
  have hregisters := rs.registers r
  have hrefused := t.register_refused r
  generalize rs.register r = answer at hanswer hregisters
  cases hregisters with
  | duplicate hclash =>
    exact ⟨⟨fun hok => (by cases hanswer.symm.trans hok), fun hr => absurd hr.1 hclash⟩,
      fun _ => hanswer, fun hfresh => absurd hfresh hclash, hrefused⟩
  | @invalid hfresh fault hfault =>
    have hnot : ¬ r.Named := fun hnamed => by cases hfault.symm.trans (r.fault?_eq_none.mpr hnamed)
    exact ⟨⟨fun hok => (by cases hanswer.symm.trans hok), fun hr => absurd hr.2 hnot⟩,
      fun hclash =>
        absurd hfresh hclash, fun _ _ => ⟨fault, hanswer⟩, hrefused⟩
  | accepted hfresh hnamed =>
    exact ⟨⟨fun _ => ⟨hfresh, hnamed⟩, fun _ => hanswer⟩, fun hclash =>
      absurd hfresh hclash, fun _ hnot => absurd hnamed hnot, hrefused⟩

/-- Registration up to the first refusal ends with it, or with the tables after all
registrations. -/
theorem extend_eq (t : Indexed) (file : List Rule) : t.extend file =
    match refusal? (t.registerAll file).1 with
    | some e => .error e
    | none => .ok (t.registerAll file).2 := by
  induction file generalizing t with
  | nil => rfl
  | cons r file ih =>
    simp only [extend, registerAll]
    generalize t.register r = answer
    obtain ⟨_ | _, t'⟩ := answer
    · rfl
    · exact ih t'

theorem Represents.extend (h : t.Represents rs) (file : List Rule) :
    match file.foldlM RuleSet.register rs with
    | .ok rs' => ∃ t', t.extend file = .ok t' ∧ t'.Represents rs'
    | .error e => t.extend file = .error e := by
  induction file generalizing t rs with
  | nil => exact ⟨t, rfl, h⟩
  | cons r file ih =>
    have hagree := h.register r
    rw [List.foldlM_cons, Indexed.extend]
    generalize t.register r = answer, rs.register r = answer' at hagree ⊢
    cases hagree with
    | accepted h' => exact ih h'
    | refused e h' => rfl

/-- A document gives tables for the list of rules that it gives, or is refused with the same
error. -/
theorem parse_represents (source : String) : match RuleSet.parse source with
    | .ok rs => ∃ t, parse source = .ok t ∧ t.Represents rs
    | .error e => parse source = .error e := by
  unfold parse RuleSet.parse
  cases Toml.decodeText rulesOfToml source with
  | error e => rfl
  | ok file =>
    have hextend := Represents.empty.extend file
    have hlist : RuleSet.ofList file = file.foldlM RuleSet.register ∅ := rfl
    have htables : ofList file = Indexed.extend {} file := rfl
    simp only [Except.mapError, bind, Except.bind, hlist, htables]
    generalize file.foldlM RuleSet.register ∅ = answer at hextend
    cases answer with
    | error e =>
      have hextend : Indexed.extend {} file = .error e := hextend
      rw [hextend]
    | ok rs =>
      obtain ⟨t, heq, ht⟩ := hextend
      rw [heq]
      exact ⟨t, rfl, ht⟩

theorem accepted_of_refusal? {log : List (Rule × Except RuleError Unit)}
    (h : refusal? log = none) : accepted log = log.map Prod.fst := by
  induction log with
  | nil => rfl
  | cons p log ih =>
    obtain ⟨r, _ | _⟩ := p
    · cases h
    · exact congrArg (r :: ·) (ih h)

theorem map_fst_registerAll (t : Indexed) (calls : List Rule) :
    (t.registerAll calls).1.map Prod.fst = calls := by
  induction calls generalizing t with
  | nil => rfl
  | cons r calls ih => exact congrArg (r :: ·) (ih _)

/-- After any registrations, refused ones included, the tables answer as scans of the rules that
were accepted, and decide on a further one by them. A document gives the tables of its rules in
order, or the refusal of the first one that is refused. -/
theorem registered :
    (∀ calls, let log := (registerAll {} calls).1
      let t := (registerAll {} calls).2
      t.Scans (accepted log) ∧ ∀ r, t.Decides (accepted log) r) ∧
    ∀ source, match Toml.decodeText rulesOfToml source with
      | .error e => parse source = .error (.decode e)
      | .ok file => match refusal? (registerAll {} file).1 with
        | some e => parse source = .error (.rule e)
        | none =>
          parse source = .ok (registerAll {} file).2 ∧ (registerAll {} file).2.rules = file := by
  have registers (calls : List Rule) : ∃ rs : RuleSet, (registerAll {} calls).2.Represents rs ∧
      rs.rules = accepted (registerAll {} calls).1 := Represents.empty.registerAll calls
  constructor
  · intro calls log t
    obtain ⟨rs, h, hrules⟩ := registers calls
    rw [← hrules]
    exact ⟨h.scans, h.decides⟩
  · intro source
    unfold parse
    cases Toml.decodeText rulesOfToml source with
    | error e => rfl
    | ok file =>
      have hlist : ofList file = _ := extend_eq {} file
      simp only [Except.mapError, bind, Except.bind, hlist]
      cases hr : refusal? (registerAll {} file).1 with
      | some e => rfl
      | none =>
        obtain ⟨rs, h, hrules⟩ := registers file
        rw [h.rules, hrules, accepted_of_refusal? hr, map_fst_registerAll]
        exact ⟨rfl, rfl⟩

end Indexed

end RuleSet

end GraphSync
