import GraphSync.Proofs.Graph.Journal
import GraphSync.Proofs.Walk.Carrying

namespace GraphSync

open Walk

/-- Does an edit of that effect call for this at the pairs of the edited element? -/
def Effect.Calls (e : Effect) (s : Side) : Due → Prop
  | .value bi => ∃ before after, e = .attributeSet (bi.1.attributes.on s) before after
  | .addition child m => ∃ index, e = .referenceAdded (child.roles.on s) index m
  | .removal child m => ∃ index, e = .referenceRemoved (child.roles.on s) index m

namespace Effect

variable {s : Side} {name : AttributeName} {before after : Value} {role : RoleName} {index : Nat}
  {m : ElementId} {due : Due}

theorem calls_attributeSet (h : (attributeSet name before after).Calls s due) :
    ∃ bi : Binding × Nat, due = .value bi ∧ bi.1.attributes.on s = name := by
  cases due with
  | value bi =>
    obtain ⟨_, _, he⟩ := h
    cases he
    exact ⟨bi, rfl, rfl⟩
  | addition child m =>
    obtain ⟨_, he⟩ := h
    cases he
  | removal child m =>
    obtain ⟨_, he⟩ := h
    cases he

theorem calls_referenceAdded (h : (referenceAdded role index m).Calls s due) :
    ∃ child : Child, due = .addition child m ∧ child.roles.on s = role := by
  cases due with
  | value bi =>
    obtain ⟨_, _, he⟩ := h
    cases he
  | addition child m' =>
    obtain ⟨_, he⟩ := h
    cases he
    exact ⟨child, rfl, rfl⟩
  | removal child m' =>
    obtain ⟨_, he⟩ := h
    cases he

theorem calls_referenceRemoved (h : (referenceRemoved role index m).Calls s due) :
    ∃ child : Child, due = .removal child m ∧ child.roles.on s = role := by
  cases due with
  | value bi =>
    obtain ⟨_, _, he⟩ := h
    cases he
  | addition child m' =>
    obtain ⟨_, he⟩ := h
    cases he
  | removal child m' =>
    obtain ⟨_, he⟩ := h
    cases he
    exact ⟨child, rfl, rfl⟩

end Effect

/-- What recorded edits call for. -/
def Debts.of (s : Side) (cs : List Change) : Debts :=
  fun _ x due => ∃ c ∈ cs, c.element = x ∧ c.effect.Calls s due

namespace OneWay

variable {k : OneWay} {o o' : Debts} {w w' : State} {done D G : List CorrespondenceId}
  {c : Correspondence} {r : Rule} {child : Child} {g' : Graph} {cs : List Change}

section Edited

variable (ht : (w.graphs.on k.source).Tells g' cs)
  (hx : (c.element k.source).index < (w.graphs.on k.source).next)
  (hlive : g'.contains (c.element k.source) = true)
  (ho : ∀ due, o c.id (c.element k.source) due ∨
    Debts.of k.source cs c.id (c.element k.source) due → o' c.id (c.element k.source) due)

include ht hx hlive ho

/-- Members that came or left are owed. -/
theorem RoleNearly.edited (h : k.RoleNearly o w done c child) :
    k.RoleNearly o' { w with graphs := w.graphs.put k.source g' } done c child := by
  have htarget : (w.graphs.put k.source g').on k.target = w.graphs.on k.target :=
    Sided.on_put_of_ne _ _ k.target_ne_source
  have hrole : State.role { w with graphs := w.graphs.put k.source g' } c child k.target =
      w.role c child k.target := by
    rw [State.role, State.role, htarget]
  have hsource : State.role { w with graphs := w.graphs.put k.source g' } c child k.source =
      g'.members (c.element k.source) (child.roles.on k.source) := by
    rw [State.role, Sided.on_put_self]
  refine ⟨fun m hm => ?_, fun hforced a ha hp => ?_, fun hforced a ha b hb he hp hp' => ?_⟩
  · rw [hsource] at hm
    rcases ht.added _ _ m hm with hm | ⟨index, hc⟩
    · refine (h.placed m hm).imp ?_ fun howed => ho _ (.inl howed)
      rintro ⟨y, hy⟩
      refine ⟨y, ?_⟩
      simpa only [Scheme.Placed, source_other, hrole, htarget] using hy
    · exact .inr (ho _ (.inr ⟨_, hc, rfl, index, rfl⟩))
  · rw [hrole] at hp
    rw [hsource]
    rcases h.matched hforced a ha hp with hm | howed
    · refine (ht.removed _ _ _ hx hlive hm).imp_right ?_
      rintro ⟨index, hc⟩
      exact ho _ (.inr ⟨_, hc, rfl, index, rfl⟩)
    · exact .inr (ho _ (.inl howed))
  · rw [hrole] at hp hp'
    exact h.sole hforced a ha b hb he hp hp'

/-- So are values that were replaced. -/
theorem Nearly.edited (h : k.Nearly o w done c r)
    (hplain : ∀ name, ((w.graphs.on k.source).reading (c.element k.source) name).isPlain = true ∧
      (g'.reading (c.element k.source) name).isPlain = true) :
    k.Nearly o' { w with graphs := w.graphs.put k.source g' } done c r where
  bindings bi hbi hordered := by
    have hsame : g'.reading (c.element k.source) (bi.1.attributes.on k.source) =
        (w.graphs.on k.source).reading (c.element k.source) (bi.1.attributes.on k.source) ∨
          o' c.id (c.element k.source) (.value bi) := by
      rcases ht.reading _ (bi.1.attributes.on k.source) hx hlive with he | he | ⟨before, after, hc⟩
      · exact .inl he
      · obtain ⟨hold, hnew⟩ := hplain (bi.1.attributes.on k.source)
        exact .inl (Value.eq_of_same hold hnew he).symm
      · exact .inr (ho _ (.inr ⟨_, hc, rfl, before, after, rfl⟩))
    rcases hsame with hsame | howed
    · have hvalues : State.values { w with graphs := w.graphs.put k.source g' } c.elements bi.1 =
          w.values c.elements bi.1 := by
        apply OneWay.sided_ext (k := k) <;> rw [State.values_on, State.values_on]
        · rw [Sided.on_put_self]
          exact hsame
        · rw [Sided.on_put_of_ne _ _ k.target_ne_source]
      rw [hvalues] at hordered
      refine (h.bindings bi hbi hordered).imp (fun hstays => ?_) fun howed => ho _ (.inl howed)
      rw [Scheme.Stays] at hstays ⊢
      rw [hvalues]
      simpa using hstays
    · exact .inr howed
  roles child hchild := (h.roles child hchild).edited ht hx hlive ho

end Edited

/-- Of a pair with a live source only those counterparts may be dropped whose own source is gone. -/
theorem Nearly.released (h : k.Nearly o w done c r) (hl : w.pairs.Listed)
    (hs : (w.graphs.on k.source).Sound) (hg : w'.graphs = w.graphs)
    (hsub : w'.pairs.entries.Sublist w.pairs.entries) (hl' : w'.pairs.Listed)
    (hkept : ∀ a ∈ w.pairs.entries,
      (w.graphs.on k.source).contains (a.element k.source) = true → a ∈ w'.pairs.entries) :
    k.Nearly o w' done c r where
  bindings bi hbi := by
    have hb := h.bindings bi hbi
    have hvalues : w'.values c.elements bi.1 = w.values c.elements bi.1 := by
      rw [State.values, State.values, hg]
    rw [BindingNearly, Scheme.Stays] at hb ⊢
    rwa [hvalues, State.conflict, hvalues]
  roles child hchild := by
    have hrole (s : Side) : w'.role c child s = w.role c child s := by
      rw [State.role, State.role, hg]
    have hrest := h.roles child hchild
    refine ⟨?_, ?_, ?_⟩ <;> simp only [hrole]
    · intro m hm
      refine (hrest.placed m hm).imp_left ?_
      rintro ⟨y, hy⟩
      obtain ⟨a, hcand, rfl, hp, hid, hmin⟩ := hy.oldest hl
      have hm' := hs.members_live _ _ _ hm
      refine ⟨_, .of_oldest hl'
        ⟨hkept a hcand.mem (hcand.of_member ▸ hm'), hcand.inner, hcand.of_member, ?_⟩
        ?_ ?_ hid⟩
      · rw [hg]
        exact hcand.live
      · rwa [hrole]
      · intro b hb hp'
        rw [hrole] at hp'
        exact hmin b ⟨hsub.subset hb.mem, hb.inner, hb.of_member, hg ▸ hb.live⟩ hp'
    · exact fun hforced a ha => hrest.matched hforced a (hsub.subset ha)
    · exact fun hforced a ha b hb => hrest.sole hforced a (hsub.subset ha) b (hsub.subset hb)

/-- The roots are paired, targets of pairs are live, and pairs with a live source are behind by what
is owed. -/
structure Trails (k : OneWay) (o : Debts) (w : State) : Prop where
  coherent : k.Coherent w.graphs w.pairs
  consistent : k.scheme.Consistent w.graphs w.pairs
  alive : ∀ c ∈ w.pairs.entries, (w.graphs.on k.target).contains (c.element k.target) = true
  anchored : w.store.Anchored
  behind : ∃ G, k.Behind o w [] G ∧ G.Nodup ∧ (∀ id ∈ G, id.index < w.pairs.next) ∧
    ∀ c ∈ w.pairs.entries, c.isAnchor = true → c.id ∈ G

namespace Trails

/-- What is shown for each pair on its own. -/
theorem map (h : k.Trails o w) (hco : k.Coherent w'.graphs w'.pairs)
    (hk : k.scheme.Consistent w'.graphs w'.pairs)
    (halive : ∀ c ∈ w'.pairs.entries,
      (w'.graphs.on k.target).contains (c.element k.target) = true)
    (ha : w'.store.Anchored) (hsub : w'.pairs.entries ⊆ w.pairs.entries)
    (hn : w'.pairs.next = w.pairs.next)
    (hmap : ∀ c ∈ w'.pairs.entries,
      (w'.graphs.on k.source).contains (c.element k.source) = true →
      (w.graphs.on k.source).contains (c.element k.source) = true ∧
        ∀ r done, k.Nearly o w done c r → k.Nearly o' w' done c r) : k.Trails o' w' := by
  obtain ⟨G, hbehind, hnodup, hbounded, hroots⟩ := h.behind
  refine ⟨hco, hk, halive, ha, G, hbehind.map fun c hc _ hlive => ?_, hnodup, fun id hid =>
    hn ▸ hbounded id hid, fun c hc => hroots c (hsub hc)⟩
  obtain ⟨hlive', hnearly⟩ := hmap c hc hlive
  exact ⟨c, hsub hc, rfl, hlive', fun r done _ => hnearly r _⟩

theorem mono (h : k.Trails o w) (ho : ∀ id x due, o id x due → o' id x due) : k.Trails o' w :=
  h.map h.coherent h.consistent h.alive h.anchored (fun _ hc => hc) rfl fun _ _ hlive =>
    ⟨hlive, fun _ _ hnearly => hnearly.mono (fun due _ => ho _ _ due) fun _ hi => hi⟩

theorem alike (h : k.Trails o w) (ha : w.Alike w')
    (hn : ∀ s, (w'.graphs.on s).next = (w.graphs.on s).next) : k.Trails o w' := by
  have hf (s : Side) : (w.graphs.on s).Follows (w'.graphs.on s) :=
    (h.coherent.sound s).congr _ (ha.elements s) (hn s)
  refine h.map (ha.pairs ▸ h.coherent.edited hf) (ha.pairs ▸ h.consistent.edited hf)
    (fun c hc => ?_) ?_ (fun c hc => ha.pairs ▸ hc) (congrArg _ ha.pairs) fun c hc hlive =>
      ⟨(ha.contains _ _).symm.trans hlive, fun _ _ hnearly =>
        hnearly.alike h.coherent.listed ha⟩
  · exact (ha.contains _ _).trans (h.alive c (ha.pairs ▸ hc))
  · obtain ⟨c, hc, hanchor⟩ := h.anchored
    exact ⟨c, (congrArg Correspondences.entries ha.pairs).symm ▸ hc, hanchor⟩

/-- Edits of the side that is followed add what their record calls for. -/
theorem edited (h : k.Trails o w) (hf : (w.graphs.on k.source).Follows g')
    (ht : (w.graphs.on k.source).Tells g' cs)
    (hplain : ∀ x name, ((w.graphs.on k.source).reading x name).isPlain = true ∧
      (g'.reading x name).isPlain = true)
    (ho : ∀ id x due, o id x due ∨ Debts.of k.source cs id x due → o' id x due) :
    k.Trails o' { w with graphs := w.graphs.put k.source g' } := by
  refine h.map (h.coherent.put hf) (h.consistent.put hf) (fun c hc => ?_) h.anchored
    (fun c hc => hc) rfl fun c hc hlive => ?_
  · rw [Sided.on_put_of_ne _ _ k.target_ne_source]
    exact h.alive c hc
  · have hx := h.consistent.element_lt k.source c hc
    rw [Sided.on_put_self] at hlive
    exact ⟨ht.live _ hx hlive, fun r done hnearly =>
      hnearly.edited ht hx hlive (fun due => ho _ _ due) (hplain _)⟩

/-- Where nothing is owed and no pair has lost its source, another pass changes nothing. -/
theorem repeats (h : k.Trails (fun _ _ _ => False) w)
    (hlive : ∀ c ∈ w.pairs.entries, (w.graphs.on k.source).contains (c.element k.source) = true)
    (ho : k.Ordered w.graphs w.pairs) (hconflicts : w.report.conflicts = []) :
    wp (syncRoots k.rules k.direction k.rootRule) (fun _ w' => ∃ V, Scheme.Same V [] w w')
      (fun _ _ => False) w := by
  obtain ⟨G, hbehind, hnodup, _, hroots⟩ := h.behind
  obtain ⟨c, hc, hanchor⟩ := h.anchored
  obtain ⟨r, hr, hkinds⟩ := h.consistent.anchor_rule hc hanchor
  have halive : w.store.Alive := fun c hc s => by
    rcases k.side_cases s with rfl | rfl
    · exact hlive c hc
    · exact h.alive c hc
  have hsub : G.filter (· ∈ w.pairs.entries.map Correspondence.id) ⊆
      w.pairs.entries.map Correspondence.id :=
    fun id hid => by simpa using (List.mem_filter.mp hid).2
  have hlength := (List.subperm_of_subset (hnodup.filter _) hsub).length_le
  have hentries := h.consistent.length_entries_le k.source hlive
  refine wp_imp
    (Scheme.repeat_syncRoots (k := k.scheme) h.consistent halive
      (hbehind.atRest h.coherent.listed hlive ho) (hnodup.filter _) ?_ hc hanchor
      (List.mem_filter.mpr ⟨hroots c hc hanchor, ?_⟩) hr hkinds (by simp [hconflicts]))
      fun _ _ hsame => ⟨_, hsame⟩
  · rw [List.length_map] at hlength
    change _ ≤ (w.graphs.on k.source).size * k.rules.size + 2
    exact Nat.le_add_right_of_le (Nat.le_trans hlength hentries)
  · exact decide_eq_true (List.mem_map_of_mem hc)

end Trails

end OneWay

namespace Pass

variable {p : Pass} {o : Debts} {w : State} {done : List Frame} {g : Frame}
  {G : List CorrespondenceId} {D : List Frame}

/-- A pass that ended well leaves nothing to do. -/
theorem Passed.trails (h : p.Passed w done g) (hk : p.scheme.Consistent w.graphs w.pairs)
    (hp : p.Later) : p.Trails o w := by
  have hs := h.steady
  refine ⟨hs.coherent, hk, hs.alive hp.intact, hs.anchored hp.spare, done.map Frame.id,
    hs.finished.behind hs hp.attributes fun _ hf => hf, by simpa using hs.ids_nodup,
      fun id hid => ?_, fun c hc ha => ?_⟩
  · obtain ⟨f, hf, rfl⟩ := List.mem_map.mp hid
    exact (hs.owned f (by simpa using hf)).old
  · -- the pair of the roots is that of the first frame
    have hid : c.id = g.id := by
      refine (hs.owned g (by simpa using h.mem)).sole c hc ?_
      rw [Correspondence.element, (hs.coherent.anchor c hc ha).2, h.pair]
    exact hid ▸ List.mem_map_of_mem h.mem

/-- A walk that carries edits over begins with no pair visited. -/
theorem carrying (h : p.Trails o w) (hp : p.Later) (hbase : w.graphs.on p.source = p.base)
    (hv : w.visited = [])
    (hgone : ∀ x ∈ w.deleted, x.1 = p.source ∧ p.base.contains x.2 = false) :
    ∃ G, p.Carrying o G [] w := by
  obtain ⟨G, hbehind, hnodup, hbounded, hroots⟩ := h.behind
  obtain ⟨c, hc, ha⟩ := h.anchored
  obtain ⟨hrule, hel⟩ := h.coherent.anchor c hc ha
  have hroot : c.element p.source = p.base.root := by
    rw [Correspondence.element, hel, Sided.on_map, hbase]
  have hsteady : p.Steady [] [] w := {
    coherent := h.coherent
    source := hbase
    alive := fun _ => h.alive
    ids_nodup := .nil
    targets_nodup := .nil
    visited := fun id => by simp [hv]
    owned := fun _ hf => by cases hf
    finished := .nil
    typed := fun hf => absurd hf hp.later
    anchored := fun _ => h.anchored
    rooted := fun _ => ⟨c, hc, hrule, hroot⟩
    tally := fun hf => absurd hf hp.later }
  exact ⟨G, hp, hsteady, h.consistent, hbehind,
    hbounded, by simpa using hnodup, by simpa using hroots, hgone⟩

namespace Carrying

/-- The pairs of the frames are not behind. -/
theorem trails (h : p.Carrying o G D w) : p.Trails o w := by
  have hs := h.steady
  refine ⟨h.coherent, h.consistent, fun _ hc => h.alive hc, h.anchored, G ++ D.map Frame.id,
    .append (by simpa using h.behind) (hs.finished.behind hs h.pass.attributes fun _ hf => hf),
      h.nodup, fun id hid => ?_,
    h.roots⟩
  rcases List.mem_append.mp hid with hid | hid
  · exact h.bounded id hid
  · obtain ⟨f, hf, rfl⟩ := List.mem_map.mp hid
    exact (hs.owned f (by simpa using hf)).old

/-- The next edit is carried over with no pair visited yet. -/
theorem restart (h : p.Carrying o G D w) : ∃ G', p.Carrying o G' [] { w with visited := [] } :=
  carrying (h.trails.alike ⟨fun _ => rfl, rfl⟩ fun _ => rfl) h.pass h.steady.source rfl h.gone

/-- At the end the pairs of the deleted elements are dropped that were noted. -/
theorem released (h : p.Carrying o G D w) : p.Trails o (releaseDeleted w) := by
  obtain ⟨hg, hn, hsub, hmem⟩ := releaseDeleted_spec w
  have hkept (a : Correspondence) (ha : a ∈ w.pairs.entries)
      (hlive : (w.graphs.on p.source).contains (a.element p.source) = true) :
      a ∈ (releaseDeleted w).pairs.entries := by
    refine (hmem a ha).mpr fun x hx he => ?_
    obtain ⟨hside, hdead⟩ := h.gone x hx
    rw [← he, hside, ← h.steady.source, hlive] at hdead
    cases hdead
  have hl := h.coherent.listed
  have hl' := hl.sublist hsub hn
  refine h.trails.map (hg ▸ h.coherent.sublist hsub hn) (hg ▸ h.consistent.sublist hsub hn)
    (fun c hc => ?_) ?_ hsub.subset hn fun c hc hlive => ?_
  · rw [hg]
    exact h.alive (hsub.subset hc)
  · obtain ⟨c, hc, ha⟩ := h.anchored
    exact ⟨c, hkept c hc (h.coherent.anchor_alive hc ha p.source), ha⟩
  · rw [hg] at hlive
    exact ⟨hlive, fun r done hnearly =>
      hnearly.released hl (h.coherent.sound p.source) hg hsub hl' hkept⟩

end Carrying

end Pass

end GraphSync
