import GraphSync.Dict
import Mathlib.Data.List.Perm.Basic
import Mathlib.Data.List.Perm.Lattice

namespace GraphSync.Dict

variable {κ α β : Type} [Ord κ] [Std.TransOrd κ] {d d' : Dict κ α}

theorem keys_nodup (d : Dict κ α) : d.keys.Nodup := by
  refine List.pairwise_map.mpr (d.sorted.imp fun {a b} hlt he => ?_)
  have hself : compare b.1 b.1 = .eq := Std.ReflCmp.compare_self
  rw [he, hself] at hlt
  cases hlt

variable [DecidableEq κ]

theorem get?_eq_some_iff {k : κ} {v : α} : d.get? k = some v ↔ (k, v) ∈ d.entries := by
  refine ⟨mem_of_get?, fun hmem => ?_⟩
  cases hf : d.get? k with
  | none =>
    have hnot : ∀ e ∈ d.entries, ¬ e.1 = k := by simpa [get?] using hf
    exact absurd rfl (hnot (k, v) hmem)
  | some v' =>
    have he : (k, v') = (k, v) := List.inj_on_of_nodup_map d.keys_nodup (mem_of_get? hf) hmem rfl
    rw [(Prod.mk.inj he).2]

/-- Entries that come in the order of their keys are listed in one way only. -/
theorem ext_get? (h : ∀ k, d.get? k = d'.get? k) : d = d' := by
  have hnodup (d : Dict κ α) : d.entries.Nodup := d.keys_nodup.of_map
  have hperm : d.entries.Perm d'.entries :=
    (List.perm_ext_iff_of_nodup (hnodup d) (hnodup d')).mpr fun e => by
      rw [← get?_eq_some_iff, ← get?_eq_some_iff, h]
  have hentries : d.entries = d'.entries := by
    refine hperm.eq_of_pairwise (fun a b _ _ hab hba => ?_) d.sorted d'.sorted
    exact absurd hba (Std.OrientedCmp.not_lt_of_lt hab)
  cases d
  cases d'
  congr

theorem get?_filter (p : α → Bool) (k : κ) : (d.filter p).get? k = (d.get? k).filter p := by
  refine Option.ext fun v => ?_
  rw [get?_eq_some_iff, Option.filter_eq_some_iff, get?_eq_some_iff, filter, List.mem_filter]

/-- The entries that `f` keeps, with the value that it gives them. -/
def filterMap (f : α → Option β) (d : Dict κ α) : Dict κ β where
  entries := d.entries.filterMap fun e => (f e.2).map (e.1, ·)
  sorted := by
    refine d.sorted.filterMap _ fun a b hab a' ha b' hb => ?_
    obtain ⟨_, _, rfl⟩ := Option.map_eq_some_iff.mp ha
    obtain ⟨_, _, rfl⟩ := Option.map_eq_some_iff.mp hb
    exact hab

theorem get?_filterMap (f : α → Option β) (k : κ) :
    (d.filterMap f).get? k = (d.get? k).bind f := by
  refine Option.ext fun v => ?_
  rw [get?_eq_some_iff, Option.bind_eq_some_iff]
  simp only [filterMap, List.mem_filterMap, Option.map_eq_some_iff, get?_eq_some_iff]
  constructor
  · rintro ⟨e, hmem, v', hf, he⟩
    cases he
    exact ⟨e.2, hmem, hf⟩
  · rintro ⟨v₀, hmem, hf⟩
    exact ⟨(k, v₀), hmem, v, hf, rfl⟩

end GraphSync.Dict
