import GraphSync.Proofs.Session.Synchronize

namespace GraphSync

open Relation

namespace Pass

variable {p : Pass} {w : Walk.State} {done : List Frame} {f g : Frame}

/-- In a first pass, a rule that is done has led to what its children ask for. -/
theorem Done.step (h : p.Done w done f) (hfirst : p.first) (howned : ∀ x ∈ done, p.Owned w x)
    {child : Child} (hc : child ∈ f.rule.children) {m : ElementId}
    (hm : m ∈ p.followed f child) :
    ∃ x ∈ done, p.resolve? p.base child m = some x.rule ∧ (p.node x).element = m := by
  obtain ⟨ys, hmet, _⟩ := h.roles child hc
  obtain ⟨y, _, c, hchosen, _, hid, hr⟩ := exists_of_mem_left hmet hm
  obtain ⟨x, hx, hxid⟩ := List.mem_map.mp hid
  obtain ⟨r, hres, hname⟩ := hr hfirst
  obtain ⟨hrule, hel⟩ := (howned x hx).entry c hchosen.mem hxid.symm
  refine ⟨x, hx, ?_, ?_⟩
  · have h₁ := RuleSet.rule?_of_mem (OneWay.mem_of_resolve? hres)
    rw [hname, hrule, (howned x hx).rule] at h₁
    rw [hres, h₁]
  · rw [← hchosen.of_member, Correspondence.element, hel]
    rfl

theorem Done.resolves (h : p.Done w done f) (hfirst : p.first)
    (howned : ∀ x ∈ done, p.Owned w x) :
    ∀ child ∈ f.rule.children, ∀ m ∈ p.followed f child, ∃ r,
      p.resolve? p.base child m = some r := by
  intro child hc m hm
  obtain ⟨x, _, hr, _⟩ := h.step hfirst howned hc hm
  exact ⟨_, hr⟩

theorem Done.step_mem (h : p.Done w done f) (hfirst : p.first)
    (howned : ∀ x ∈ done, p.Owned w x) {n : Node} (hs : p.Step p.base (p.node f) n) :
    ∃ x ∈ done, p.node x = n := by
  obtain ⟨child, hc, hm, hr⟩ := hs
  obtain ⟨x, hx, hres, he⟩ := h.step hfirst howned hc hm
  refine ⟨x, hx, ?_⟩
  cases n
  simp_all [Pass.node]

/-- What is done leads on to what is done, and every way on ends. -/
theorem Finished.acc (h : p.Finished w done) (hfirst : p.first)
    (howned : ∀ x ∈ done, p.Owned w x) :
    ∀ x ∈ done, Acc (Function.swap (p.Step p.base)) (p.node x) ∧
      (∀ n, p.Step p.base (p.node x) n → ∃ y ∈ done, p.node y = n) ∧
      ∀ child ∈ x.rule.children, ∀ m ∈ p.followed x child, ∃ r,
        p.resolve? p.base child m = some r := by
  induction h with
  | nil => exact fun _ hx => by cases hx
  | @cons f done head tail ih =>
    have htail : ∀ x ∈ done, p.Owned w x := fun x hx => howned x (List.mem_cons_of_mem _ hx)
    intro x hx
    rcases List.mem_cons.mp hx with rfl | hx
    · refine ⟨⟨_, ?_⟩, ?_, head.resolves hfirst htail⟩
      · intro n hn
        obtain ⟨y, hy, rfl⟩ := head.step_mem hfirst htail hn
        exact (ih htail y hy).1
      · intro n hn
        obtain ⟨y, hy, he⟩ := head.step_mem hfirst htail hn
        exact ⟨y, List.mem_cons_of_mem _ hy, he⟩
    · obtain ⟨hacc, hstep, hres⟩ := ih htail x hx
      refine ⟨hacc, ?_, hres⟩
      intro n hn
      obtain ⟨y, hy, he⟩ := hstep n hn
      exact ⟨y, List.mem_cons_of_mem _ hy, he⟩

/-- A first pass that succeeded has applied a rule at every node that is reached. -/
theorem Passed.mem_of_reached (h : p.Passed w done g) (hfirst : p.first) {n : Node}
    (hn : p.Reached p.base n) : ∃ x ∈ done, p.node x = n := by
  have howned : ∀ x ∈ done, p.Owned w x := fun x hx => h.steady.owned x hx
  obtain ⟨r, hr, hpath⟩ := hn
  rw [h.rule] at hr
  cases hr
  induction hpath with
  | refl =>
    refine ⟨g, h.mem, ?_⟩
    simp only [Pass.node, h.pair, Sided.on_map]
    rfl
  | tail _ hs ih =>
    obtain ⟨x, hx, rfl⟩ := ih
    exact (h.steady.finished.acc hfirst howned x hx).2.1 _ hs

theorem not_transGen_of_acc {n : Node} (h : Acc (Function.swap (p.Step p.base)) n) :
    ¬ TransGen (p.Step p.base) n n := by
  intro hloop
  have hacc : Acc (TransGen (Function.swap (p.Step p.base))) n := h.transGen
  have hswap : TransGen (Function.swap (p.Step p.base)) n n := transGen_swap.mpr hloop
  induction hacc with
  | intro n _ ih => exact ih n hswap (h.inv_of_transGen hswap) hloop hswap

theorem Passed.acyclic (h : p.Passed w done g) (hfirst : p.first) :
    p.Resolves p.base ∧ p.Acyclic p.base := by
  have howned : ∀ x ∈ done, p.Owned w x := fun x hx => h.steady.owned x hx
  have hdone := h.steady.finished.acc hfirst howned
  constructor
  · intro n hn child hc m hm
    obtain ⟨x, hx, rfl⟩ := h.mem_of_reached hfirst hn
    exact (hdone x hx).2.2 child hc m hm
  · intro n hn
    obtain ⟨x, hx, rfl⟩ := h.mem_of_reached hfirst hn
    exact not_transGen_of_acc (hdone x hx).1

end Pass

namespace Session

variable {s : Session} {source : Side} {forced : Bool}

/-- A one-way pass of a session that has recorded nothing yet succeeds exactly when every member
that is reached has a rule and nothing that is reached leads back to itself. Otherwise it says which
of the two does not hold. -/
theorem first_synchronize_ok_iff (hpairs : s.pairs = {})
    (hbuilt : ∀ side, (s.graphs.on side).Built) (hd : s.options.direction = .oneWay source forced)
    (hroles : s.rules.UniqueRoles source.other)
    (hfit : (s.oneWay source forced).RootsFit s.graphs) :
    ((∃ report, s.synchronize.1 = .ok report) ↔
      (s.oneWay source forced).Resolves (s.graphs.on source) ∧
      (s.oneWay source forced).Acyclic (s.graphs.on source)) ∧
    ∀ e, s.synchronize.1 = .error e →
      (s.oneWay source forced).Refusal (s.graphs.on source) e := by
  let p : Pass := s.nextPass source forced True False False.elim hroles
  obtain ⟨hok, herror⟩ :=
    pass_spec (p := p) (.of_new hpairs hbuilt hd) rfl trivial (fun _ h => h)
    (fun _ => by rw [hpairs]) False.elim
  have hrefused (e : Error) (he : s.pass.1 = .error e) : p.Refusal p.base e :=
    (herror e he).1 hfit trivial
  rw [synchronize_ok_iff]
  refine ⟨⟨?_, ?_⟩, ?_⟩
  · intro he
    obtain ⟨done, g, hp⟩ := hok he
    exact hp.acyclic trivial
  · intro hsafe
    obtain ⟨hresolves, hacyclic⟩ := hsafe
    cases he : s.pass.1 with
    | ok a => rfl
    | error e =>
      cases hrefused e he with
      | noRule types h => exact absurd hresolves h
      | cycle rule pair h => exact absurd hacyclic h
  · intro e he
    cases hrefused e (error_of_synchronize he) with
    | noRule types h => exact .noRule types h
    | cycle rule pair h => exact .cycle rule pair h

/-- What two nodes lead to in common is no cycle. -/
theorem first_synchronize_ok_diamond :
    ((Sample.copying (.oneWay .left false)).oneWay .left false).Resolves Sample.diamond ∧
      ((Sample.copying (.oneWay .left false)).oneWay .left false).Acyclic Sample.diamond :=
  (first_synchronize_ok_iff (s := Sample.copying (.oneWay .left false)) rfl (Sample.built_copying _)
    rfl (by decide) ⟨_, rfl, fun side => by cases side <;> rfl⟩).1.mp
    ⟨{ elementsCreated := 3, pairsCreated := 4, attributesUpdated := 3, referencesLinked := 4 }, by
      decide +kernel⟩

end Session

end GraphSync
