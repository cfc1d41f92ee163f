import GraphSync.Proofs.Merge.Since

namespace GraphSync.Merge

open Walk Relation

variable {k : Scheme} {V : CorrespondenceId → Prop} {w₀ w w' : State} {i : CorrespondenceId}
  {path done : List CorrespondenceId} {pending pending' : List (Binding × Nat)}
  {c c' : Correspondence} {r : Rule}

/-- Rules are being applied to the pairs of `path`, the innermost first, and were applied to those
of `done`. Of the bindings of the innermost pair those of `pending` are still to be applied. The
pass has started in `w₀`. -/
structure Steady (k : Scheme) (w₀ : State) (path done : List CorrespondenceId)
    (pending : List (Binding × Nat)) (w : State) : Prop where
  consistent : k.Consistent w.graphs w.pairs
  alive : w.store.Alive
  anchored : w.store.Anchored
  ids_nodup : (path ++ done).Nodup
  visited : ∀ id, id ∈ w.visited ↔ id ∈ path ++ done
  recorded : ∀ id ∈ path ++ done, ∃ c ∈ w.pairs.entries, c.id = id
  since : Since w₀ (Handled k path done pending) w
  finished : (∀ s, k.rules.UniqueRoles s) → Finished k w done
  reached : ∀ id ∈ path ++ done, Reached k w id
  grounded : ∀ i l, (i :: l) <:+ path → Grounded k w (i :: l)
  conflicts_nodup : w.report.conflicts.Nodup

namespace Steady

/-- The entry of a handle. -/
theorem eq_of_id (h : Steady k w₀ path done pending w) (hc : c ∈ w.pairs.entries)
    (hc' : c' ∈ w.pairs.entries) (hi : c.id = c'.id) : c = c' :=
  h.consistent.listed.eq_of_id hc hc' hi

theorem apart (h : Steady k w₀ path done pending w) (ht : ∀ s, k.rules.UniqueTypes s)
    (s : Side) : w.store.Apart s :=
  h.consistent.apart h.alive (ht s)

/-- What is written on behalf of the innermost pair leaves the others alone. -/
theorem write (h : Steady k w₀ (i :: path) done pending w) (ht : ∀ s, k.rules.UniqueTypes s)
    (hg : Grows k (· = i) w w') (hv : w'.visited = w.visited) (hn : w'.report.conflicts.Nodup)
    (hs : Since w₀ (Handled k (i :: path) done pending') w') :
    Steady k w₀ (i :: path) done pending' w' := by
  have hk' := hg.acts.consistent h.consistent
  refine ⟨hk', hg.acts.alive h.consistent h.alive, hg.anchored, h.ids_nodup, fun id =>
    hv ▸ h.visited id, ?_, hs, ?_, ?_, ?_, hn⟩
  · intro id hid
    obtain ⟨c, hc, rfl⟩ := h.recorded id hid
    obtain ⟨c', hc', hcore⟩ := hg.kept hc
    exact ⟨c', hc', Correspondence.id_eq_of_core hcore⟩
  · intro hroles
    refine (h.finished hroles).grows ht hg hk'.listed
      (fun id hid => h.recorded id (by simp [hid])) ?_
    intro id hid he
    exact (List.nodup_cons.mp h.ids_nodup).1 (he ▸ List.mem_append_right path hid)
  · exact fun id hid => (h.reached id hid).retains hg.retains
  · exact fun j l hl => (h.grounded j l hl).grows hg

/-- Writes that leave all values as they are, and the innermost pair. -/
theorem write_roles (h : Steady k w₀ (c.id :: path) done pending w)
    (ht : ∀ s, k.rules.UniqueTypes s) (hg : Grows k (· = c.id) w w')
    (hv : w'.visited = w.visited) (hc : w'.report.conflicts = w.report.conflicts)
    (hm : c ∈ w.pairs.entries) (hm' : c ∈ w'.pairs.entries)
    (hreading : ∀ s x name, (w'.graphs.on s).reading x name = (w.graphs.on s).reading x name) :
    Steady k w₀ (c.id :: path) done pending w' := by
  have hl' := (hg.acts.consistent h.consistent).listed
  refine h.write ht hg hv (hc ▸ h.conflicts_nodup)
    (h.since.write ht hg h.recorded (List.Subset.refl _)
    (fun x hx => hc ▸ hx) ?_ (fun s x name => .inl (hreading s x name)) ?_ fun x hx =>
      .inl (hc ▸ hx))
  · intro a ha hi bi hbi
    obtain rfl := hl'.eq_of_id ha hm' hi
    refine (h.since.settled a hm bi hbi).keeps ?_ rfl rfl fun x hx => hc ▸ hx
    exact Sided.ext (hreading .left _ _) (hreading .right _ _)
  · intro a ha hi index
    obtain rfl := hl'.eq_of_id ha hm' hi
    exact h.since.remembered a hm index

/-- A rule starts to be applied. -/
theorem push (h : Steady k w₀ path done [] w) (ht : ∀ s, k.rules.UniqueTypes s)
    (hc : c ∈ w.pairs.entries) (hr : k.rules.rule? c.rule = some r) (hnew : c.id ∉ path ++ done)
    (hreached : Reached k w c.id) (hgrounded : Grounded k w (c.id :: path)) :
    Steady k w₀ (c.id :: path) done r.numbered { w with visited := c.id :: w.visited } := by
  have hg : Grows k (fun _ => False) w { w with visited := c.id :: w.visited } :=
    ⟨h.consistent, h.alive, h.anchored, .refl⟩
  refine ⟨h.consistent, h.alive, h.anchored, List.nodup_cons.mpr ⟨hnew, h.ids_nodup⟩, ?_, ?_,
    ?_, ?_, ?_, ?_, h.conflicts_nodup⟩
  · intro id
    simp [h.visited id]
  · intro id hid
    rcases List.mem_cons.mp hid with rfl | hid
    · exact ⟨c, hc, rfl⟩
    · exact h.recorded id hid
  · -- none of its bindings was applied yet
    have hsince : Since w₀ (Handled k (c.id :: path) done r.numbered) w := by
      refine h.since.congr fun a ha bi => ⟨fun hb => ?_, fun hb => ?_⟩
      · rcases List.mem_cons.mp hb.listed with hi | hid
        · obtain rfl := h.eq_of_id ha hc hi
          exact absurd (hb.mem_numbered hr) (hb.past rfl)
        · exact ⟨hid, hb.numbered, fun _ => by simp⟩
      · refine ⟨List.mem_cons_of_mem _ hb.listed, hb.numbered, fun he => ?_⟩
        have hi : c.id = a.id := Option.some.inj he
        exact absurd hb.listed (hi ▸ hnew)
    exact ⟨hsince.listed, hsince.next_le, hsince.old,
      fun a ha bi hb => (hsince.settled a ha bi hb).keeps rfl rfl rfl fun _ hx => hx,
        hsince.reading,
      hsince.remembered, hsince.reported⟩
  · intro hroles
    exact (h.finished hroles).grows ht hg h.consistent.listed
      (fun id hid => h.recorded id (by simp [hid])) fun _ _ => id
  · intro id hid
    rcases List.mem_cons.mp hid with rfl | hid
    · exact hreached.retains hg.retains
    · exact (h.reached id hid).retains hg.retains
  · intro j l hl
    rcases List.suffix_cons_iff.mp hl with he | hl
    · rw [he]
      exact hgrounded.grows hg
    · exact (h.grounded j l hl).grows hg

/-- A rule was applied to the end. -/
theorem pop (h : Steady k w₀ (c.id :: path) done [] w) (hc : c ∈ w.pairs.entries)
    (hroles : (∀ s, k.rules.UniqueRoles s) → RolesDone k w done c) :
    Steady k w₀ path (c.id :: done) [] w := by
  have hperm : (path ++ c.id :: done).Perm (c.id :: path ++ done) := List.perm_middle
  refine ⟨h.consistent, h.alive, h.anchored, hperm.nodup_iff.mpr h.ids_nodup, ?_, ?_, ?_, ?_, ?_,
    ?_, h.conflicts_nodup⟩
  · exact fun id => (h.visited id).trans hperm.mem_iff.symm
  · exact fun id hid => h.recorded id (hperm.mem_iff.mp hid)
  · exact h.since.congr fun a _ bi =>
      ⟨fun hb => ⟨hperm.mem_iff.mp hb.listed, hb.numbered, fun _ => by simp⟩,
        fun hb => ⟨hperm.mem_iff.mpr hb.listed, hb.numbered, fun _ => by simp⟩⟩
  · intro hunique
    refine .cons ?_ (h.finished hunique)
    intro a ha hi
    obtain rfl := h.eq_of_id ha hc hi
    exact hroles hunique
  · exact fun id hid => h.reached id (hperm.mem_iff.mp hid)
  · exact fun j l hl => h.grounded j l (hl.trans (List.suffix_cons _ _))

end Steady

end GraphSync.Merge
