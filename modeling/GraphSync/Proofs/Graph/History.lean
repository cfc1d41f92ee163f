import GraphSync.Graph.History
import GraphSync.Proofs.Graph.Journal
import Mathlib.Data.List.Nodup

namespace GraphSync.Graph

variable {g g' g'' : Graph}

theorem next_insertReference {owner target : ElementId} {role : RoleName} {index : Nat} {b : Bool}
    (hr : g.insertReference owner role index target = .ok (b, g')) : g'.next = g.next := by
  rcases eq_or_rewrites_of_insertReference hr with rfl | ⟨_, _, _, _, hw⟩
  · rfl
  · exact hw.next

theorem next_dropReference (g : Graph) (owner : ElementId) (role : RoleName) (target : ElementId) :
    (g.dropReference owner role target).next = g.next := by
  rcases dropReference_cases g owner target role with ⟨_, hg⟩ | ⟨_, hw⟩
  · rw [hg]
  · exact hw.next

theorem next_isolate (g : Graph) (x : ElementId) : (g.isolate x).next = g.next := by
  have hfold (places : List (ElementId × RoleName)) (g : Graph) :
      (places.foldl (fun g r => g.dropReference r.1 r.2 x) g).next = g.next := by
    induction places generalizing g with
    | nil => rfl
    | cons p places ih => rw [List.foldl_cons, ih, next_dropReference]
  exact hfold (g.referrers x) g

/-- Creation gives out the next handle; no other edit gives one out. -/
theorem perform_cases {e : Edit} {o : Edit.Outcome} (hr : g.perform e = .ok (o, g')) :
    (∃ kind, e = .add kind ∧ o = .created ⟨g.next⟩ ∧ g' = (g.add kind).2) ∨
      ((∀ kind, e ≠ .add kind) ∧ g'.next = g.next) := by
  cases performs_of_ok hr with
  | add kind write => exact .inl ⟨kind, rfl, rfl, write⟩
  | set write => exact .inr ⟨by simp, (rewrites_of_setValue write).2.next⟩
  | push write => exact .inr ⟨by simp, next_insertReference write⟩
  | insert write => exact .inr ⟨by simp, next_insertReference write⟩
  | @unlink owner target role _ write =>
    exact .inr ⟨by simp, write ▸ next_dropReference g owner role target⟩
  | @remove x _ write =>
    obtain ⟨_, _, hw, _⟩ := remove_ok write
    exact .inr ⟨by simp, hw.next.trans (next_isolate g x)⟩

/-- From `g` to `g'` these elements were created, under handles that `g` had not given out, each one
after the others. Whatever is live in the end was live before or is one of them, of the type it then
had. -/
structure Creates (g g' : Graph) (made : List (ElementId × TypeName)) : Prop where
  follows : g.Follows g'
  given : ∀ p ∈ made, g.next ≤ p.1.index ∧ p.1.index < g'.next
  rising : made.Pairwise fun p q => p.1.index < q.1.index
  typed : ∀ x kind, g'.kind? x = some kind → g.kind? x = some kind ∨ (x, kind) ∈ made

namespace Creates

variable {made made' : List (ElementId × TypeName)}

theorem nil (hf : g.Follows g') (hn : g'.next = g.next) : g.Creates g' [] := by
  refine ⟨hf, by simp, .nil, fun x kind hk => .inl (hf.kind_of_old x kind ?_ hk)⟩
  exact hn ▸ hf.sound.live_lt x (contains_iff_kind.mpr ⟨kind, hk⟩)

theorem append (h : g.Creates g' made) (h' : g'.Creates g'' made') :
    g.Creates g'' (made ++ made') := by
  refine ⟨h.follows.trans h'.follows, fun p hp => ?_, ?_, fun x kind hk => ?_⟩
  · rcases List.mem_append.mp hp with hp | hp
    · exact ⟨(h.given p hp).1, Nat.lt_of_lt_of_le (h.given p hp).2 h'.follows.next_le⟩
    · exact ⟨Nat.le_trans h.follows.next_le (h'.given p hp).1, (h'.given p hp).2⟩
  · refine List.pairwise_append.mpr ⟨h.rising, h'.rising, fun p hp q hq => ?_⟩
    exact Nat.lt_of_lt_of_le (h.given p hp).2 (h'.given q hq).1
  · rcases h'.typed x kind hk with hk | hmade
    · exact (h.typed x kind hk).imp_right (List.mem_append_left made')
    · exact .inr (List.mem_append_right made hmade)

theorem add (h : g.Sound) (kind : TypeName) : g.Creates (g.add kind).2 [(⟨g.next⟩, kind)] := by
  refine ⟨h.add kind, ?_, List.pairwise_singleton _ _, fun x k hk => ?_⟩
  · intro p hp
    rw [List.mem_singleton.mp hp]
    exact ⟨Nat.le_refl _, Nat.lt_succ_self _⟩
  · by_cases hx : x = ⟨g.next⟩
    · subst x
      rw [kind?, element?_add_self kind h.fresh] at hk
      cases hk
      exact .inr (List.mem_singleton_self _)
    · rw [kind?, element?_add_of_ne kind hx] at hk
      exact .inl hk

end Creates

theorem Sound.creates_operate (h : g.Sound) (op : Operation) :
    g.Creates (g.operate op).2 (created [(op, (g.operate op).1)]) := by
  cases op with
  | edit e =>
    cases hr : g.perform e with
    | error err =>
      have hnone : created [(.edit e, .refused err)] = [] := by cases e <;> rfl
      simp only [operate, hr, hnone]
      exact .nil h.refl rfl
    | ok r =>
      obtain ⟨o, g'⟩ := r
      have hedit : g.edit e = g' := by simp only [Graph.edit, hr]
      have hf : g.Follows g' := hedit ▸ h.edit e
      simp only [operate, hr]
      rcases perform_cases hr with ⟨kind, rfl, rfl, rfl⟩ | ⟨hne, hn⟩
      · exact .add h kind
      · have hnone : created [(.edit e, .edited o)] = [] := by
          cases e with
          | add kind => exact absurd rfl (hne kind)
          | set | push | insert | unlink | remove => rfl
        rw [hnone]
        exact .nil hf hn
  | observe on => exact .nil (h.congr (g.observe on) rfl rfl) rfl
  | takeChanges => exact .nil (h.congr g.takeChanges.2 rfl rfl) rfl
  | clone => exact .nil h.refl rfl

theorem Sound.creates_operateAll (h : g.Sound) (ops : List Operation) :
    g.Creates (g.operateAll ops).2 (created (g.operateAll ops).1) := by
  induction ops generalizing g with
  | nil => exact .nil h.refl rfl
  | cons op ops ih =>
    have hop := h.creates_operate op
    have hsplit : created (g.operateAll (op :: ops)).1 =
        created [(op, (g.operate op).1)] ++ created ((g.operate op).2.operateAll ops).1 := by
      rw [created, created, created, ← List.filterMap_append]
      rfl
    rw [hsplit]
    exact hop.append (ih hop.follows.sound)

theorem Sound.element?_of_mem (h : g.Sound) {e : Element} (he : e ∈ g.elements) :
    g.element? e.id = some e := by
  obtain ⟨e', he'⟩ := contains_iff.mp (mem_ids.mp (List.mem_map.mpr ⟨e, he, rfl⟩))
  rw [he', List.inj_on_of_nodup_map h.ids_nodup (mem_of_element? he') he (id_of_element? he')]

theorem Sound.element?_iff (h : g.Sound) {x : ElementId} {e : Element} :
    g.element? x = some e ↔ e ∈ g.elements ∧ e.id = x := by
  constructor
  · exact fun he => ⟨mem_of_element? he, id_of_element? he⟩
  · rintro ⟨he, rfl⟩
    exact h.element?_of_mem he

/-- A graph whose live elements were created as these. -/
structure WellFormed (g : Graph) (made : List (ElementId × TypeName)) : Prop where
  root_live : g.contains g.root = true
  stored : ∀ x e, g.element? x = some e ↔ e ∈ g.elements ∧ e.id = x
  typed : ∀ e ∈ g.elements, (e.id, e.kind) ∈ made
  targets_nodup : ∀ e ∈ g.elements, ∀ role, (e.targets role).Nodup
  targets_live : ∀ e ∈ g.elements, ∀ role, ∀ y ∈ e.targets role, g.contains y = true

theorem Sound.wellFormed (h : g.Sound) {made : List (ElementId × TypeName)}
    (typed : ∀ x kind, g.kind? x = some kind → (x, kind) ∈ made) : g.WellFormed made := by
  have hmembers {e : Element} (he : e ∈ g.elements) (role : RoleName) :
      e.targets role = g.members e.id role := by
    simp [members, h.element?_of_mem he]
  refine ⟨h.root_live, fun x e => h.element?_iff, fun e he => typed e.id e.kind ?_,
    fun e he role => ?_, fun e he role y hy => ?_⟩
  · simp [kind?, h.element?_of_mem he]
  · rw [hmembers he]
    exact h.members_nodup e.id role
  · rw [hmembers he] at hy
    exact h.members_live e.id role y hy

/-- An element that has been handed out and is live later was live before, with the same type. -/
def Keeps (g g' : Graph) : Prop :=
  ∀ x kind, x.index < g.next → g'.kind? x = some kind → g.kind? x = some kind

/-- Whatever is done to a new graph, refused operations included: its root is live, an element is
stored under its own handle and has the type it was created with, no handle is given out twice, and
no role lists an element twice or lists one that is gone. Nor does an element change its type or
come back, whatever is done next. -/
theorem wellFormed_operateAll (name : String) (kind : TypeName) (ops : List Operation) :
    let log := ((new name kind).operateAll ops).1
    let g := ((new name kind).operateAll ops).2
    let made := (g.root, kind) :: created log
    g.WellFormed made ∧ (made.map Prod.fst).Nodup ∧
    ∀ more, g.Keeps (g.operateAll more).2 := by
  intro log g made
  have hnew : (new name kind).Sound := sound_new name kind
  have hc : (new name kind).Creates g (created log) := hnew.creates_operateAll ops
  refine ⟨hc.follows.sound.wellFormed fun x k hk => ?_, ?_, fun more => ?_⟩
  · rcases hc.typed x k hk with hk | hmade
    · -- only the root was there from the start
      by_cases hx : x = ⟨0⟩
      · subst x
        cases hk
        exact List.mem_cons_self
      · have hx' : ¬ (⟨0⟩ : ElementId) = x := fun he => hx he.symm
        simp [kind?, element?, new, hx'] at hk
    · exact List.mem_cons_of_mem _ hmade
  · have hrising : made.Pairwise fun p q => p.1.index < q.1.index :=
      List.pairwise_cons.mpr ⟨fun p hp => (hc.given p hp).1, hc.rising⟩
    refine List.pairwise_map.mpr (hrising.imp fun {p q} hlt he => ?_)
    rw [he] at hlt
    exact Nat.lt_irrefl _ hlt
  · exact (hc.follows.sound.creates_operateAll more).follows.kind_of_old

end GraphSync.Graph
