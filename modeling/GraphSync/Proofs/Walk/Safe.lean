import GraphSync.Proofs.Walk.Anchor

namespace GraphSync

open Walk

namespace Scheme

variable {k : Scheme} {d : Direction} {w : State}

/-- Pairing the roots fails before anything is written, and for a rule only if that is the root
rule. -/
theorem safe_pairRoots (h : k.Consistent w.graphs w.pairs) :
    wp (pairRoots k.rules d k.rootRule)
      (fun x w' => ∃ c, k.Paired x.1 c w w' ∧ x.2 = (c.id, w'.graphs.map Graph.root))
      (fun e w' => w' = w ∧ (∀ g, e ≠ .graph g) ∧ ∀ name, e = .rule (.unknown name) →
        name = k.rootRule) w := by
  apply wp_pairRoots_paired h
  · intro _
    refine ⟨rfl, nofun, fun name he => ?_⟩
    cases he
    rfl
  · exact fun _ _ => ⟨rfl, nofun, nofun⟩
  · exact fun _ _ => ⟨rfl, nofun, nofun⟩
  · exact fun r c w' hp _ => ⟨c, hp, rfl⟩

/-- Once the roots are paired, a pass leaves only pairs with both elements, however it ends, and
misses none. -/
theorem safe_run {r : Rule} {c : Correspondence} {w₀ : State} (h : k.Paired r c w₀ w) :
    wp (do releaseAllLost k.rules d; start k.rules d r c.id (w.graphs.map Graph.root))
      (fun _ w' => w'.store.Alive)
      (fun e w' => w'.store.Alive ∧ e.Expected ∧ ∀ g, e ≠ .graph g) w := by
  refine wp_run_purged h.consistent h.entry h.anchor h.rule fun w₁ hp => ?_
  have alive {w' : State} (hw : k.Went d (fun _ => False) w₁ w') : w'.store.Alive :=
    hw.acts.alive hp.consistent hp.alive
  refine wp_mono hp.traces (fun _ _ hw => alive hw) ?_
  intro e w' hw
  obtain ⟨hwent, hexpected, hgraph⟩ := hw
  exact ⟨alive hwent, hexpected, fun g he => hgraph g he⟩

end Scheme

end GraphSync
