import GraphSync.Proofs.Walk.Trace

namespace GraphSync

open Walk Relation

variable {k : Scheme} {d : Direction} {V : CorrespondenceId → Prop} {a b : Store}
  {c : Correspondence}

/-- Where types tell rules apart, a live element takes part in one pair. -/
theorem Scheme.Consistent.apart (h : k.Consistent a.graphs a.pairs) (ha : a.Alive) {s : Side}
    (ht : k.rules.UniqueTypes s) : a.Apart s := by
  intro c hc c' hc' he
  obtain ⟨r, hr, hk⟩ := h.typed c hc
  obtain ⟨r', hr', hk'⟩ := h.typed c' hc'
  obtain ⟨hm, hname⟩ := RuleSet.mem_of_rule? hr
  obtain ⟨hm', hname'⟩ := RuleSet.mem_of_rule? hr'
  obtain ⟨kind, hkind⟩ := Graph.contains_iff_kind.mp (ha c hc s)
  have hrule : r = r' := ht.eq hm hm' ((hk s kind hkind).symm.trans (hk' s kind (he ▸ hkind)))
  refine h.key_inj s c hc c' hc' ?_ he
  rw [← hname, ← hname', hrule]

namespace Store

/-- A pair is as it was: its elements, and what is recorded of it. -/
structure Keeps (a b : Store) (c : Correspondence) : Prop where
  entry : c ∈ b.pairs.entries
  element? : ∀ s, (b.graphs.on s).element? (c.element s) = (a.graphs.on s).element? (c.element s)

/-- Where no pair is new, elements still tell pairs apart. -/
theorem Apart.of_origin {s : Side} (ha : a.Apart s) (hl : b.pairs.Listed)
    (h : ∀ c ∈ b.pairs.entries, ∃ c₀ ∈ a.pairs.entries, c.core = c₀.core) :
    b.Apart s := by
  intro c hc c' hc' he
  obtain ⟨c₀, hc₀, hcore⟩ := h c hc
  obtain ⟨c₁, hc₁, hcore'⟩ := h c' hc'
  rw [Correspondence.element_eq_of_core hcore, Correspondence.element_eq_of_core hcore'] at he
  refine hl.eq_of_id hc hc' ?_
  rw [Correspondence.id_eq_of_core hcore, Correspondence.id_eq_of_core hcore',
    ha c₀ hc₀ c₁ hc₁ he]

/-- An element of a side on which elements tell pairs apart is a counterpart of one element. -/
theorem Apart.partner_unique {s : Side} (h : a.Apart s.other) {x x' y : ElementId}
    (hx : y ∈ a.pairs.partners s x) (hx' : y ∈ a.pairs.partners s x') : x = x' := by
  obtain ⟨c, hc, rfl, hcy⟩ := Correspondences.mem_partners.mp hx
  obtain ⟨c', hc', rfl, hcy'⟩ := Correspondences.mem_partners.mp hx'
  rw [h c hc c' hc' (hcy.trans hcy'.symm)]

theorem Keeps.trans {a' : Store} (h : a.Keeps a' c) (h' : a'.Keeps b c) : a.Keeps b c :=
  ⟨h'.entry, fun s => (h'.element? s).trans (h.element? s)⟩

theorem Keeps.role {w w' : State} (h : w.store.Keeps w'.store c) (child : Child) (s : Side) :
    w'.role c child s = w.role c child s := by
  have he : (w'.graphs.on s).element? (c.element s) = (w.graphs.on s).element? (c.element s) :=
    h.element? s
  simp only [State.role, Graph.members, he]

theorem Keeps.values {w w' : State} (h : w.store.Keeps w'.store c) (b : Binding) :
    w'.values c.elements b = w.values c.elements b := by
  have he (s : Side) : ((w'.values c.elements b).on s) = ((w.values c.elements b).on s) := by
    have he : (w'.graphs.on s).element? (c.elements.on s) =
        (w.graphs.on s).element? (c.elements.on s) := h.element? s
    simp only [State.values_on, Graph.reading, he]
  exact Sided.ext (he .left) (he .right)

/-- As long as the roots are paired, a handle stands for an entry. -/
theorem Names.exists_entry {id : CorrespondenceId} {rule : Rule} {pair : Sided ElementId}
    (h : a.Names id rule pair) (ha : a.Anchored) :
    ∃ c ∈ a.pairs.entries, c.id = id ∧ c.elements = pair := by
  rcases h.recorded with ⟨c, hc, hi, _⟩ | ⟨_, hanchor⟩
  · exact ⟨c, hc, hi, (h.entry c hc hi).2⟩
  · obtain ⟨c, hc, hanchored⟩ := ha
    have hi := hanchor c hc hanchored
    exact ⟨c, hc, hi, (h.entry c hc hi).2⟩

end Store

/-- Where elements of a side are only followed, a new pair has a new element there. -/
theorem Act.apart (h : Act k d V a b) (hk : k.Consistent a.graphs a.pairs) {s : Side}
    (hd : ∀ t ∈ d.authorities, t.other = s) (ha : a.Apart s) : b.Apart s := by
  have hl := (h.consistent hk).listed
  have shadowed {id : CorrespondenceId} {index : Nat} {values : Sided Value} :
      ∀ c ∈ (a.pairs.recordShadow id index values).entries, ∃ c₀ ∈ a.pairs.entries,
        c.core = c₀.core := by
    intro c hc
    obtain ⟨c₀, hc₀, hcore, _⟩ := (Correspondences.Touches.recordShadow _ _ _ _).old c hc
    exact ⟨c₀, hc₀, hcore⟩
  cases h with
  | remember => exact ha.of_origin hl shadowed
  | copy => exact Store.Apart.of_origin (a := a) ha hl shadowed
  | link => exact ha
  | unlink => exact ha
  | make =>
    intro c hc c' hc'
    exact ha c ((Correspondences.without_sublist _ _ _ _).1.subset hc) c'
      ((Correspondences.without_sublist _ _ _ _).1.subset hc')
  | @record t role owner m y r side member rule kind kind' unpaired fresh inner =>
    obtain rfl := hd t side
    have hy : (a.pairs.newEntry r.name (t.arrange m y) d).element t.other = y :=
      Sided.on_arrange_other _ _ _
    intro c hc c' hc' he
    rcases List.mem_append.mp hc with hc | hc <;> rcases List.mem_append.mp hc' with hc' | hc'
    · exact ha c hc c' hc' he
    · rw [List.mem_singleton.mp hc', hy] at he
      exact absurd he (fresh c hc)
    · rw [List.mem_singleton.mp hc, hy] at he
      exact absurd he.symm (fresh c' hc')
    · rw [List.mem_singleton.mp hc, List.mem_singleton.mp hc']

/-- The roots were paired before the write if they are after it. -/
theorem Act.keeps_others (h : Act k d V a b) (hk : k.Consistent a.graphs a.pairs)
    (hapart : ∀ s ∈ d.authorities, a.Apart s.other) (hb : b.Anchored)
    (hc : c ∈ a.pairs.entries) (hl : ∀ s, (a.graphs.on s).contains (c.element s) = true)
    (hv : ¬ V c.id) : a.Keeps b c := by
  have ha : a.Anchored := h.anchored_of hb
  -- the pair that is written for has other elements
  have other {id : CorrespondenceId} {rule : Rule} {pair : Sided ElementId} {s : Side}
      (hn : a.Names id rule pair) (hs : s ∈ d.authorities) (hid : V id) :
      c.element s.other ≠ pair.on s.other := by
    intro he
    obtain ⟨c', hc', hi, hel⟩ := hn.exists_entry ha
    have hsame : c = c' := hapart s hs c hc c' hc' (he.trans (congrArg (·.on s.other) hel).symm)
    exact hv (hsame ▸ hi ▸ hid)
  have put {s : Side} {g' : Graph} {t : Correspondences} (hm : c ∈ t.entries)
      (hg : g'.element? (c.element s) = (a.graphs.on s).element? (c.element s)) :
      a.Keeps ⟨a.graphs.put s g', t⟩ c := by
    refine ⟨hm, fun u => ?_⟩
    by_cases hu : u = s
    · subst u
      rw [Sided.on_put_self]
      exact hg
    · rw [Sided.on_put_of_ne _ _ hu]
  have shadowed {id : CorrespondenceId} {index : Nat} {values : Sided Value} (on : V id) :
      c ∈ (a.pairs.recordShadow id index values).entries := by
    obtain ⟨c', hc', _, hsame⟩ := Correspondences.exists_mem_recordShadow id index values hc
    exact hsame (fun e => hv (e ▸ on)) ▸ hc'
  cases h with
  | remember on => exact ⟨shadowed on, fun _ => rfl⟩
  | copy on names known numbered side write =>
    exact put (shadowed on) (write.element?_of_ne (other names side on))
  | link on names side partner live new le write =>
    exact put hc (write.element?_of_ne _ (other names side on))
  | unlink forced on names side write => exact put hc (write.element?_of_ne _ (other names side on))
  | @make s child owner m r side invoked member rule type stale =>
    refine put (hk.mem_without.mpr ⟨hc, ?_⟩) ?_
    · intro hkey
      rcases stale c hc hkey.1 hkey.2 with hanchor | hdead
      · obtain ⟨c', hc', hanchor'⟩ := hb
        obtain ⟨hm, hn⟩ := hk.mem_without.mp hc'
        rw [hk.anchor_unique hm hc hanchor' hanchor] at hn
        exact hn hkey
      · rw [hl] at hdead
        cases hdead
    · have hlt := hk.element_lt s.other c hc
      exact Graph.element?_add_of_ne _ fun e => by simp [e] at hlt
  | record => exact ⟨List.mem_append_left _ hc, fun _ => rfl⟩

namespace Acts

theorem keeps_others (h : Acts k d V a b) (hk : k.Consistent a.graphs a.pairs)
    (hapart : ∀ b, Acts k d V a b → ∀ s ∈ d.authorities, b.Apart s.other) (hb : b.Anchored)
    (hc : c ∈ a.pairs.entries) (hl : ∀ s, (a.graphs.on s).contains (c.element s) = true)
    (hv : ¬ V c.id) : a.Keeps b c := by
  induction h with
  | refl => exact ⟨hc, fun _ => rfl⟩
  | @tail a' b hrun hact ih =>
    have hrun' : Acts k d V a a' := hrun
    have hbefore := ih (hact.anchored_of hb)
    refine hbefore.trans
      (hact.keeps_others (hrun'.consistent hk) (hapart a' hrun) hb hbefore.entry ?_ hv)
    exact fun s => hrun'.contains hk (hl s)

theorem apart (h : Acts k d V a b) (hk : k.Consistent a.graphs a.pairs) {s : Side}
    (hd : ∀ t ∈ d.authorities, t.other = s) : a.Apart s → b.Apart s :=
  h.keep hk fun _ _ hk hact => hact.apart hk hd

/-- Where every pair has live elements, and types tell rules apart. -/
theorem keeps_others_of_types (h : Acts k d V a b) (hk : k.Consistent a.graphs a.pairs)
    (ha : a.Alive) (ht : ∀ s, k.rules.UniqueTypes s) (hb : b.Anchored)
    (hc : c ∈ a.pairs.entries) (hv : ¬ V c.id) : a.Keeps b c :=
  h.keeps_others hk
    (fun _ hrun s _ => (Acts.consistent hrun hk).apart (Acts.alive hrun hk ha) (ht s.other)) hb hc
    (ha c hc) hv

end Acts

theorem OneWay.other_of_mem_authorities {k : OneWay} {s : Side}
    (hs : s ∈ k.direction.authorities) : s.other = k.target :=
  congrArg Side.other (List.mem_singleton.mp hs)

theorem OneWay.apart_of_acts {k : OneWay} (h : Acts k.scheme k.direction V a b)
    (hk : k.scheme.Consistent a.graphs a.pairs) (ha : a.Apart k.target) : b.Apart k.target :=
  h.apart hk (fun _ hs => k.other_of_mem_authorities hs) ha

/-- Only the side that follows has to tell pairs apart. -/
theorem OneWay.keeps_others {k : OneWay} (h : Acts k.scheme k.direction V a b)
    (hk : k.scheme.Consistent a.graphs a.pairs) (ha : a.Apart k.target) (hb : b.Anchored)
    (hc : c ∈ a.pairs.entries) (hl : ∀ s, (a.graphs.on s).contains (c.element s) = true)
    (hv : ¬ V c.id) : a.Keeps b c := by
  refine h.keeps_others hk (fun b' hrun s hs => ?_) hb hc hl hv
  rw [k.other_of_mem_authorities hs]
  exact k.apart_of_acts hrun hk ha

/-- What a session has recorded that follows one side only. -/
theorem OneWay.coherent_of_apart {k : OneWay} {graphs : Sided Graph} {t : Correspondences}
    (h : k.scheme.Consistent graphs t) (ha : Store.Apart ⟨graphs, t⟩ k.target)
    (hroots : Store.Anchored ⟨graphs, t⟩) : k.Coherent graphs t where
  sound := h.sound
  listed := h.listed
  target_inj := ha
  key_inj := h.key_inj k.source
  target_lt := h.element_lt k.target
  anchor := h.anchor
  member c hc hi he := by
    obtain ⟨a, hm, hanchor⟩ := hroots
    have hsame : c = a := ha c hc a hm (by
      rw [he, Correspondence.element, (h.anchor a hm hanchor).2, Sided.on_map])
    rw [hsame, hanchor] at hi
    cases hi
  known c hc := (h.typed c hc).imp fun _ hr => hr.1

namespace OneWay

variable {k : OneWay}

theorem coherent_of_act (h : Act k.scheme k.direction V a b)
    (hk : k.scheme.Consistent a.graphs a.pairs) (hco : k.Coherent a.graphs a.pairs) :
    k.Coherent b.graphs b.pairs := by
  have hk' := h.consistent hk
  have hapart : a.Apart k.target := hco.target_inj
  refine ⟨hk'.sound, hk'.listed, h.apart hk (fun _ hs => k.other_of_mem_authorities hs) hapart,
    hk'.key_inj k.source,
    hk'.element_lt k.target, hk'.anchor, fun c hc hi => ?_, fun c hc =>
      (hk'.typed c hc).imp fun _ hr => hr.1⟩
  rcases h.origin hc with ⟨c₀, hc₀, hcore, _⟩ | ⟨_, _, _, s, hs, _, hinner, _⟩
  · rw [Correspondence.element_eq_of_core hcore]
    exact hco.member c₀ hc₀ ((Correspondence.isAnchor_eq_of_core hcore).symm.trans hi)
  · rw [k.other_of_mem_authorities hs] at hinner
    exact hinner

theorem coherent_of_acts (h : Acts k.scheme k.direction V a b)
    (hk : k.scheme.Consistent a.graphs a.pairs) :
    k.Coherent a.graphs a.pairs → k.Coherent b.graphs b.pairs :=
  h.keep (P := fun b => k.Coherent b.graphs b.pairs) hk fun _ _ hk hact => k.coherent_of_act hact hk

/-- An entry that is left, and was not written for, is as it was. -/
theorem keeps_of_act (h : Act k.scheme k.direction V a b)
    (hk : k.scheme.Consistent a.graphs a.pairs) (hco : k.Coherent a.graphs a.pairs)
    (hc : c ∈ b.pairs.entries) (hi : c.id.index < a.pairs.next) (hv : ¬ V c.id) :
    c ∈ a.pairs.entries ∧ a.Keeps b c := by
  have hmem : c ∈ a.pairs.entries := by
    rcases h.origin hc with ⟨c₀, hc₀, hcore, hsame⟩ | ⟨_, hnew, _⟩
    · obtain rfl := hsame (Correspondence.id_eq_of_core hcore ▸ hv)
      exact hc₀
    · omega
  refine ⟨hmem, hc, ?_⟩
  -- the pair that is written for has another target
  have other {id : CorrespondenceId} {rule : Rule} {pair : Sided ElementId} {s : Side}
      (hn : a.Names id rule pair) (hs : s ∈ k.direction.authorities) (hid : V id) :
      c.element s.other ≠ pair.on s.other := by
    rw [k.other_of_mem_authorities hs]
    intro he
    rcases hn.recorded with ⟨c', hc', hi', _⟩ | ⟨hroots, hanchors⟩
    · obtain rfl :=
        hco.target_inj c hmem c' hc'
          (he.trans (congrArg (·.on k.target) (hn.entry c' hc' hi').2).symm)
      exact hv (hi' ▸ hid)
    · rw [hroots, Sided.on_map] at he
      cases ha : c.isAnchor with
      | false => exact hco.member c hmem ha he
      | true => exact hv (hanchors c hmem ha ▸ hid)
  have put {s : Side} {g' : Graph}
      (hg : g'.element? (c.element s) = (a.graphs.on s).element? (c.element s)) (u : Side) :
      ((a.graphs.put s g').on u).element? (c.element u) =
        (a.graphs.on u).element? (c.element u) := by
    by_cases hu : u = s
    · subst u
      rw [Sided.on_put_self]
      exact hg
    · rw [Sided.on_put_of_ne _ _ hu]
  cases h with
  | remember => exact fun _ => rfl
  | copy on names known numbered side write =>
    exact put (write.element?_of_ne (other names side on))
  | link on names side partner live new le write =>
    exact put (write.element?_of_ne _ (other names side on))
  | unlink forced on names side write => exact put (write.element?_of_ne _ (other names side on))
  | @make s child owner m r side =>
    refine put (Graph.element?_add_of_ne _ fun he => ?_)
    have hlt := hk.element_lt s.other c hmem
    simp [he] at hlt
  | record => exact fun _ => rfl

theorem keeps_of_acts (h : Acts k.scheme k.direction V a b)
    (hk : k.scheme.Consistent a.graphs a.pairs) (hco : k.Coherent a.graphs a.pairs)
    (hc : c ∈ b.pairs.entries) (hi : c.id.index < a.pairs.next) (hv : ¬ V c.id) :
    c ∈ a.pairs.entries ∧ a.Keeps b c := by
  induction h with
  | refl => exact ⟨hc, hc, fun _ => rfl⟩
  | @tail a' b hrun hact ih =>
    have hrun' : Acts k.scheme k.direction V a a' := hrun
    have hle := hrun'.next_le hk
    obtain ⟨hc', hkeeps⟩ :=
      k.keeps_of_act hact (hrun'.consistent hk) (k.coherent_of_acts hrun' hk hco) hc
        (Nat.lt_of_lt_of_le hi hle) hv
    obtain ⟨hc₀, hkeeps₀⟩ := ih hc'
    exact ⟨hc₀, hkeeps₀.trans hkeeps⟩

end OneWay

end GraphSync
