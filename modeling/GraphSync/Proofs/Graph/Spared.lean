import GraphSync.Proofs.Graph.Sound
import Mathlib.Data.List.InsertIdx

namespace GraphSync.Graph

/-- From `g` to `g'` no element was deleted or has another type. Those that `P` holds of were not
written, and where they are members they still are, in the same order. -/
structure Spared (P : ElementId → Prop) (g g' : Graph) : Prop where
  kind? : ∀ x kind, g.kind? x = some kind → g'.kind? x = some kind
  element? : ∀ x e, P x → g.element? x = some e → g'.element? x = some e
  members : ∀ x role (ys : List ElementId), ys.Sublist (g.members x role) →
    (∀ y ∈ ys, P y) → ys.Sublist (g'.members x role)

variable {g g' g'' : Graph} {P P' : ElementId → Prop}

namespace Spared

theorem refl (P : ElementId → Prop) (g : Graph) : g.Spared P g :=
  ⟨fun _ _ hk => hk, fun _ _ _ he => he, fun _ _ _ hys _ => hys⟩

theorem trans (h : g.Spared P g') (h' : g'.Spared P g'') : g.Spared P g'' where
  kind? x kind hk := h'.kind? x kind (h.kind? x kind hk)
  element? x e hx he := h'.element? x e hx (h.element? x e hx he)
  members x role ys hys hp := h'.members x role ys (h.members x role ys hys hp) hp

theorem mono (h : g.Spared P g') (hp : ∀ x, P' x → P x) : g.Spared P' g' where
  kind? := h.kind?
  element? x e hx he := h.element? x e (hp x hx) he
  members x role ys hys hy := h.members x role ys hys fun y hm => hp y (hy y hm)

/-- The journal and its switch do not matter. -/
theorem congr (P : ElementId → Prop) (he : g'.elements = g.elements) : g.Spared P g' := by
  have hel (x : ElementId) : g'.element? x = g.element? x := by simp only [Graph.element?, he]
  refine ⟨fun x kind hk => ?_, fun x e _ hx => ?_, fun x role ys hys _ => ?_⟩
  · rwa [Graph.kind?, hel]
  · rwa [hel]
  · rwa [Graph.members, hel]

theorem contains (h : g.Spared P g') {x : ElementId} (hx : g.contains x = true) :
    g'.contains x = true := by
  obtain ⟨kind, hk⟩ := contains_iff_kind.mp hx
  exact contains_iff_kind.mpr ⟨kind, h.kind? x kind hk⟩

end Spared

theorem Rewrites.spared {x : ElementId} {name : AttributeName} {v : Value}
    (h : g.Rewrites g' x (·.setValue name v)) (hx : ¬ P x) : g.Spared P g' := by
  refine ⟨fun y kind hk => h.kind? (fun _ => rfl) y ▸ hk, fun y e hy he => ?_,
    fun y role ys hys _ => ?_⟩
  · rw [h.element?_of_ne fun heq => hx (heq ▸ hy)]
    exact he
  · rwa [h.members_setValue]

/-- Of a role that is rewritten, only the members that `P` holds of have to stay. -/
theorem Relists.spared {x : ElementId} {role : RoleName} {ts : List ElementId}
    (h : g.Relists g' x role ts) (hx : ¬ P x)
    (hts : ∀ ys : List ElementId, ys.Sublist (g.members x role) → (∀ y ∈ ys, P y) →
      ys.Sublist ts) :
    g.Spared P g' := by
  refine ⟨fun y kind hk => h.kind? y ▸ hk, fun y e hy he => ?_, fun y r ys hys hy => ?_⟩
  · rw [h.element?_of_ne y fun heq => hx (heq ▸ hy)]
    exact he
  · rw [h.members]
    split
    · rename_i heq
      rw [heq.1, heq.2] at hys
      exact hts ys hys hy
    · exact hys

theorem Relists.spared_insertIdx {x t : ElementId} {role : RoleName} {index : Nat}
    (h : g.Relists g' x role ((g.members x role).insertIdx index t)) (hx : ¬ P x) :
    g.Spared P g' :=
  h.spared hx fun _ hys _ => hys.trans (List.sublist_insertIdx ..)

theorem Relists.spared_filter {x t : ElementId} {role : RoleName}
    (h : g.Relists g' x role ((g.members x role).filter (· ≠ t))) (hx : ¬ P x) (ht : ¬ P t) :
    g.Spared P g' := by
  refine h.spared hx fun ys hys hp => ?_
  have hall : ys.filter (· ≠ t) = ys := List.filter_eq_self.mpr fun y hy => by
    simpa using fun heq : y = t => ht (heq ▸ hp y hy)
  rw [← hall]
  exact hys.filter _

theorem Sound.spared_add (h : g.Sound) (P : ElementId → Prop) (kind : TypeName) :
    g.Spared P (g.add kind).2 := by
  have hold {x : ElementId} (hx : g.contains x = true) : (g.add kind).2.element? x = g.element? x :=
    element?_add_of_ne kind fun heq => Bool.noConfusion (hx.symm.trans (heq ▸ h.fresh))
  refine ⟨fun x k hk => ?_, fun x e _ he => ?_, fun x role ys hys _ => ?_⟩
  · rw [kind?, hold (contains_iff_kind.mpr ⟨k, hk⟩)]
    exact hk
  · rwa [hold (contains_iff.mpr ⟨e, he⟩)]
  · rwa [h.members_add]

end GraphSync.Graph
