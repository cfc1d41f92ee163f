import GraphSync.Proofs.Merge.Whole
import GraphSync.Proofs.Walk.Node
import GraphSync.Proofs.Walk.Rest

namespace GraphSync

open Walk

/-- No value that a binding relates on a recorded pair is a NaN. -/
def Scheme.Ordered (k : Scheme) (a : Store) : Prop :=
  ∀ c ∈ a.pairs.entries, ∀ r ∈ k.rules.rule? c.rule, ∀ bi ∈ r.numbered,
    ∀ s ∈ Side.all, ((c.values a.graphs bi.1).on s).isOrdered = true

instance Scheme.decidableOrdered (k : Scheme) (a : Store) : Decidable (k.Ordered a) :=
  inferInstanceAs
    (Decidable
      (∀ c ∈ a.pairs.entries, ∀ r ∈ k.rules.rule? c.rule, ∀ bi ∈ r.numbered,
        ∀ s ∈ Side.all, _))

theorem Walk.State.Alike.ordered {k : Scheme} {w w' : State} (h : w.Alike w')
    (ho : k.Ordered w.store) : k.Ordered w'.store := by
  intro c (hc : c ∈ w'.pairs.entries) r hr bi hbi s hs
  rw [h.pairs] at hc
  have hvalues : c.values w'.store.graphs bi.1 = c.values w.store.graphs bi.1 :=
    h.values c.elements bi.1
  rw [hvalues]
  exact ho c hc r hr bi hbi s hs

/-- Rules that were applied to different pairs with live elements are within the limit of
nesting. -/
theorem Scheme.Consistent.length_le_nestingLimit {k : Scheme} {w : State}
    {done : List CorrespondenceId} (h : k.Consistent w.graphs w.pairs) (ha : w.store.Alive)
    (hn : done.Nodup) (hids : done ⊆ w.pairs.entries.map Correspondence.id) :
    done.length ≤ nestingLimit k.rules .twoWay w.graphs :=
  calc done.length
    _ ≤ w.pairs.entries.length := by simpa using (List.subperm_of_subset hn hids).length_le
    _ ≤ w.graphs.left.size * k.rules.size := h.length_entries_le .left fun c hc => ha c hc .left
    _ ≤ (w.graphs.left.size + w.graphs.right.size + UInt32.size) * k.rules.size :=
      Nat.mul_le_mul_right _ (by omega)
    _ ≤ nestingLimit k.rules .twoWay w.graphs := Nat.le_add_right _ _

theorem Walk.State.Alike.retains {w w' : State} (h : w.Alike w') : Merge.Retains w w' := by
  refine ⟨fun c hc => ⟨c, h.pairs ▸ hc, rfl⟩, fun s x role m hm => ?_⟩
  rw [Graph.members] at hm ⊢
  rwa [h.element?]

namespace Merge

open Relation

variable {k : Scheme} {w₀ w₀' w w' : State} {done done' : List CorrespondenceId}
  {c : Correspondence} {r : Rule} {child : Child} {s : Side} {m : ElementId}
  {i j : CorrespondenceId} {X : List Conflict}

/-- Where an element of a side takes part in one pair, the counterpart that a member is given is
that of its pair. -/
theorem Met.placed (h : Met w done c child s m) (hl : w.pairs.Listed) (hapart : w.store.Apart s)
    (halive : w.store.Alive) : ∃ y, k.Placed w done c child s m y := by
  obtain ⟨a, hm, hi, he, hp, hid⟩ := h
  refine ⟨_, .of_oldest hl ⟨hm, hi, he, halive a hm s.other⟩ hp (fun a' hcand' _ => ?_) hid⟩
  obtain rfl := hapart a' hcand'.mem a hm (hcand'.of_member.trans he.symm)
  exact Nat.le_refl _

/-- A binding that was brought in step, or found in conflict, is left as it is. -/
theorem BindingDone.stays {bi : Binding × Nat} (h : BindingDone w c bi)
    (ho : ∀ s, ((w.values c.elements bi.1).on s).isOrdered = true) :
    Scheme.Stays .twoWay w.report.conflicts w c bi := by
  rcases h with ⟨hverdict, hreported⟩ | ⟨hverdict, hremembered⟩
  · exact .inr ⟨hverdict, hreported⟩
  · exact .inl ⟨hverdict ho, hremembered⟩

theorem Finished.atRest (h : Finished k w done) (hl : w.pairs.Listed)
    (hapart : ∀ s, w.store.Apart s) (halive : w.store.Alive)
    (hbound : ∀ c ∈ w.pairs.entries, c.id ∈ done → ∀ r, k.rules.rule? c.rule = some r →
      ∀ bi ∈ r.numbered, BindingDone w c bi) (ho : k.Ordered w.store) :
    k.AtRest .twoWay w.report.conflicts w done := by
  induction h with
  | nil => exact .nil
  | @cons id done hhead _ ih =>
    refine .cons ?_ (ih fun c hc hid => hbound c hc (List.mem_cons_of_mem _ hid))
    rintro c hc rfl r hr
    refine ⟨?_, ?_, fun hforced => by cases hforced⟩
    · intro bi hbi
      exact (hbound c hc (by simp) r hr bi hbi).stays fun s => ho c hc r hr bi hbi s s.mem_all
    · intro child hchild s _ m hm
      exact (hhead c hc rfl r hr child hchild s m hm).placed hl (hapart s) halive

namespace Merged

variable (h : Merged k w₀ done w) (ht : ∀ s, k.rules.UniqueTypes s)

include h

theorem anchor (hc : c ∈ w.pairs.entries) (ha : c.isAnchor = true) : c.id ∈ done := by
  obtain ⟨a, hm, hanchor, hid⟩ := h.roots
  rwa [h.consistent.anchor_unique hc hm ha hanchor]

theorem recorded_ids : done ⊆ w.pairs.entries.map Correspondence.id := by
  intro id hid
  obtain ⟨c, hc, rfl⟩ := h.recorded id (by simpa using hid)
  exact List.mem_map_of_mem hc

include ht

/-- The pass has applied the rules of all that is reached from the roots. -/
theorem mem_of_reached (hi : Reached k w i) : i ∈ done := by
  obtain ⟨a, hm, hanchor, hpath⟩ := hi
  induction hpath with
  | refl => exact h.anchor hm hanchor
  | tail _ hleads ih =>
    obtain ⟨c, hc, rfl, r, hr, child, hchild, s, c', hc', rfl, _, hmem⟩ := hleads
    obtain ⟨a', ha', _, he, _, hid⟩ := h.whole.rolesDone hc ih r hr child hchild s _ hmem
    rwa [h.consistent.apart h.alive (ht s) c' hc' a' ha' he.symm]

theorem atRest (ho : k.Ordered w.store) : k.AtRest .twoWay w.report.conflicts w done :=
  h.whole.atRest h.consistent.listed (fun s => h.consistent.apart h.alive (ht s)) h.alive
    (fun _ hc hid _ hr _ hbi => (h.bound hc hid hr hbi).bindingDone) ho

/-- Another pass changes nothing. -/
theorem again (ha : w.Alike w') (hk : k.Consistent w'.graphs w'.pairs) (ho : k.Ordered w.store)
    (hc : w'.report.conflicts = []) :
    wp (syncRoots k.rules .twoWay k.rootRule) (fun _ => Scheme.Same done w.report.conflicts w')
      (fun _ _ => False) w' := by
  obtain ⟨c, hm, hanchor, hid⟩ := h.roots
  obtain ⟨r, hr, hkinds⟩ := hk.anchor_rule (ha.pairs ▸ hm) hanchor
  exact Scheme.repeat_syncRoots hk (ha.alive h.alive)
    ((h.atRest ht ho).alike h.consistent.listed ha)
    (by simpa using h.ids_nodup)
    (hk.length_le_nestingLimit (ha.alive h.alive) (by simpa using h.ids_nodup)
      (ha.pairs ▸ h.recorded_ids)) (ha.pairs ▸ hm) hanchor hid hr hkinds (by simp [hc])

/-- Of two passes that leave the same elements and pairs, both report the same conflicts. -/
theorem conflicts_subset (h' : Merged k w₀' done' w') (ha : w.Alike w')
    (ho : k.Ordered w'.store) : w.report.conflicts ⊆ w'.report.conflicts := by
  intro x hx
  obtain ⟨c, hc, bi, hb, hverdict, rfl⟩ := h.since.reported x hx
  obtain ⟨r, hr, hbi⟩ := hb.numbered
  obtain ⟨hvalues, hshadow⟩ := (h.since.settled c hc bi hb).of_conflict hverdict
  rw [verdict, ← hvalues, ← hshadow, ← ha.values] at hverdict
  have hid' : c.id ∈ done' := h'.mem_of_reached ht ((h.reached _ hb.listed).retains ha.retains)
  have hc' : c ∈ w'.pairs.entries := ha.pairs ▸ hc
  have hconflict :
      w₀.conflict c.rule c.id c.elements bi.1 = w'.conflict c.rule c.id c.elements bi.1 := by
    rw [State.conflict, State.conflict, ha.values, hvalues]
  rw [hconflict]
  rcases (h'.bound hc' hid' hr hbi).bindingDone with ⟨_, hreported⟩ | ⟨hkept, _⟩
  · exact hreported
  · exact Verdict.noConfusion
      (hverdict.symm.trans (hkept fun s => ho c hc' r hr bi hbi s s.mem_all))

end Merged

end Merge

end GraphSync
