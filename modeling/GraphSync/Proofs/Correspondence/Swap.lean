import GraphSync.Proofs.Correspondence.Bijection
import GraphSync.Proofs.Rule.Swap
import GraphSync.Walk.Root

namespace GraphSync

namespace Dict

variable {κ α β : Type} [Ord κ]

/-- Changes what is stored under every key. -/
def map (f : α → β) (d : Dict κ α) : Dict κ β where
  entries := d.entries.map fun e => (e.1, f e.2)
  sorted := List.pairwise_map.mpr d.sorted

theorem map_put (f : α → β) (k : κ) (v : α) (l : List (κ × α)) :
    (put k v l).map (fun e => (e.1, f e.2)) = put k (f v) (l.map fun e => (e.1, f e.2)) := by
  induction l with
  | nil => rfl
  | cons a l ih =>
    simp only [List.map_cons, put]
    split
    · rfl
    · rfl
    · rw [List.map_cons, ih]

theorem map_insert [Std.TransOrd κ] (f : α → β) (d : Dict κ α) (k : κ) (v : α) :
    (d.insert k v).map f = (d.map f).insert k (f v) := by
  simp only [map, insert, map_put]

end Dict

namespace Correspondence

def swap (c : Correspondence) : Correspondence :=
  { c with elements := c.elements.swap, createdIn := c.createdIn.swap, shadows :=
    c.shadows.map Sided.swap }

variable (c : Correspondence) (s : Side)

@[simp] theorem id_swap : c.swap.id = c.id := rfl

@[simp] theorem rule_swap : c.swap.rule = c.rule := rfl

@[simp] theorem isAnchor_swap : c.swap.isAnchor = c.isAnchor := rfl

@[simp] theorem element_swap : c.swap.element s = c.element s.other := c.elements.on_swap s

theorem element_swap_other : c.swap.element s.other = c.element s := by
  rw [element_swap, Side.other_other]

theorem is_swap (rule : RuleName) (pair : Sided ElementId) :
    c.swap.Is rule pair.swap ↔ c.Is rule pair :=
  and_congr_right fun _ => Sided.swap_inj

end Correspondence

namespace Correspondences

def swap (t : Correspondences) : Correspondences :=
  { t with entries := t.entries.map Correspondence.swap }

variable (t : Correspondences) (rule : RuleName) (s : Side) (e : ElementId) (pair : Sided ElementId)

theorem get?_swap (id : CorrespondenceId) :
    t.swap.get? id = (t.get? id).map Correspondence.swap := by
  simp only [get?, swap, List.find?_map]
  rfl

theorem lookup?_swap :
    t.swap.lookup? rule s.other e = (t.lookup? rule s e).map Correspondence.swap := by
  simp only [lookup?, swap, List.find?_map]
  congr 2
  funext c
  exact decide_eq_decide.mpr (by simp)

theorem pairing?_swap : t.swap.pairing? pair.swap = (t.pairing? pair).map Correspondence.swap := by
  simp only [pairing?, swap, List.find?_map]
  congr 2
  funext c
  exact decide_eq_decide.mpr Sided.swap_inj

theorem anchor?_swap : t.swap.anchor? = t.anchor?.map Correspondence.swap := by
  simp only [anchor?, swap, List.find?_map]
  rfl

theorem ofElement_swap :
    t.swap.ofElement s.other e = (t.ofElement s e).map Correspondence.swap := by
  simp only [ofElement, swap, List.filter_map]
  congr 2
  funext c
  simp

theorem partners_swap : t.swap.partners s.other e = t.partners s e := by
  simp only [partners, ofElement_swap, List.map_map]
  refine List.map_congr_left fun c _ => ?_
  simp

theorem members_swap : t.swap.members = t.members.map Correspondence.swap := by
  simp only [members, swap, List.filter_map]
  rfl

theorem rival?_swap_eq_none : t.swap.rival? rule pair.swap = none ↔
    t.rival? rule pair = none := by
  have hleft : t.swap.lookup? rule .left pair.swap.left =
      (t.lookup? rule .right pair.right).map Correspondence.swap :=
    t.lookup?_swap rule .right pair.right
  have hright : t.swap.lookup? rule .right pair.swap.right =
      (t.lookup? rule .left pair.left).map Correspondence.swap :=
    t.lookup?_swap rule .left pair.left
  simp only [rival?, Option.or_eq_none_iff, hleft, hright, pairing?_swap, Option.map_eq_none_iff]
  tauto

theorem walksRole_swap (rules : RuleSet) (role : RoleName) :
    t.swap.walksRole rules.swap s.other e role = t.walksRole rules s e role := by
  simp only [walksRole, ofElement_swap, List.any_map]
  congr 1
  funext c
  simp only [Function.comp, Correspondence.rule_swap, RuleSet.rule?_swap, Option.any_map,
    Rule.childrenOn_swap]
  congr 1
  funext r
  simp

theorem counterpart?_swap (rules : RuleSet) (child : Child) (following : Graph)
    (present : List ElementId) :
    t.swap.counterpart? rules.swap child.swap s.other following present e =
      (t.counterpart? rules child s following present e).map Correspondence.swap := by
  have hlive :
      ((t.swap.ofElement s.other e).filter fun c =>
        !c.isAnchor && following.contains (c.element s.other.other)) =
      ((t.ofElement s e).filter fun c => !c.isAnchor && following.contains (c.element s.other)).map
        Correspondence.swap := by
    rw [ofElement_swap, List.filter_map]
    congr 2
    funext c
    simp
  simp only [counterpart?, hlive, List.find?_map, Option.map_or]
  congr 3
  · funext c
    simp
  · funext c
    simp only [Function.comp, Correspondence.rule_swap, RuleSet.rule?_swap, Option.any_map,
      Side.other_other, Child.swap, Sided.on_swap]
    congr 1
    funext r
    simp [Rule.swap]

theorem position?_swap (present : List ElementId) :
    t.swap.position? s.other present e = t.position? s present e := by
  rw [position?, partners_swap, position?]

theorem slot_swap (present earlier later : List ElementId) :
    t.swap.slot s.other present earlier later = t.slot s present earlier later := by
  have h : t.swap.position? s.other present = t.position? s present :=
    funext fun e => t.position?_swap s e present
  rw [slot, h, slot]

theorem modify_swap {f g : Correspondence → Correspondence} (h : ∀ c, (f c).swap = g c.swap)
    (id : CorrespondenceId) : (t.modify id f).swap = t.swap.modify id g := by
  simp only [modify, swap, List.map_map]
  congr 1
  refine List.map_congr_left fun c _ => ?_
  by_cases hi : c.id = id <;> simp [hi, h]

theorem recordShadow_swap (id : CorrespondenceId) (index : Nat) (values : Shadow) :
    (t.recordShadow id index values).swap = t.swap.recordShadow id index values.swap :=
  t.modify_swap (fun c => by simp only [Correspondence.swap, Dict.map_insert]) id

theorem remove_swap (id : CorrespondenceId) : (t.remove id).swap = t.swap.remove id := by
  simp only [remove, swap, List.filter_map]
  rfl

theorem release_swap :
    t.swap.release s.other e =
      ((t.release s e).1.map Correspondence.swap, (t.release s e).2.swap) := by
  refine Prod.ext (t.ofElement_swap s e) ?_
  simp only [release, swap, List.filter_map]
  congr 3
  funext c
  simp

variable {t rule pair}

theorem Keyed.swap (h : t.Keyed s) : t.swap.Keyed s.other := by
  intro c hc c' hc' hrule hel
  obtain ⟨a, ha, rfl⟩ := List.mem_map.mp hc
  obtain ⟨a', ha', rfl⟩ := List.mem_map.mp hc'
  rw [Correspondence.element_swap, Correspondence.element_swap, Side.other_other] at hel
  rw [h a ha a' ha' hrule hel]

variable (rule pair)

/-- A request for a pair is answered alike. A refusal may name another rival, where there is one on
each side. -/
theorem obtain?_swap (h : ∀ s, t.Keyed s) (d : Direction) :
    (∃ o t', t.obtain? rule pair d = .ok (o, t') ∧
      t.swap.obtain? rule pair.swap d.swap = .ok (o, t'.swap)) ∨
    ∃ c c', t.obtain? rule pair d = .error ⟨rule, pair, c⟩ ∧
      t.swap.obtain? rule pair.swap d.swap = .error ⟨rule, pair.swap, c'⟩ := by
  have hswap : t.swap.Keyed .left := (h .right).swap
  rcases t.obtain?_cases rule pair d with ⟨c, hr, hi, he⟩ | ⟨c, hr, hi, he⟩ | ⟨hr, he⟩
  · obtain ⟨rfl, rfl⟩ := hi
    have hc : c.swap ∈ t.swap.entries := List.mem_map_of_mem (mem_of_rival? hr)
    exact .inl ⟨_, _, he, hswap.obtain?_recorded hc d.swap⟩
  · rcases t.swap.obtain?_cases rule pair.swap d.swap with ⟨c', hr', hi', _⟩ | ⟨c', _, _,
      he'⟩ | ⟨hr', _⟩
    · -- the pair itself is recorded, so that it is its own rival
      obtain ⟨a, ha, rfl⟩ := List.mem_map.mp (mem_of_rival? hr')
      obtain ⟨rfl, rfl⟩ := (a.is_swap rule pair).mp hi'
      rw [(h .left).obtain?_recorded ha d] at he
      cases he
    · exact .inr ⟨_, _, he, he'⟩
    · rw [rival?_swap_eq_none, hr] at hr'
      cases hr'
  · rcases t.swap.obtain?_cases rule pair.swap d.swap with ⟨c', hr', _⟩ | ⟨c', hr', _⟩ | ⟨_, he'⟩
    · rw [(t.rival?_swap_eq_none rule pair).mpr hr] at hr'
      cases hr'
    · rw [(t.rival?_swap_eq_none rule pair).mpr hr] at hr'
      cases hr'
    · refine .inl ⟨_, _, he, he'.trans ?_⟩
      simp only [swap, List.map_append]
      rfl

theorem anchor_swap (h : ∀ s, t.Keyed s) (d : Direction) :
    (∃ o t', t.anchor rule pair d = .ok (o, t') ∧
      t.swap.anchor rule pair.swap d.swap = .ok (o, t'.swap)) ∨
    ∃ c c', t.anchor rule pair d = .error ⟨rule, pair, c⟩ ∧
      t.swap.anchor rule pair.swap d.swap = .error ⟨rule, pair.swap, c'⟩ := by
  rw [anchor_eq, anchor_eq, anchor?_swap]
  cases ha : t.anchor? with
  | some c =>
    by_cases hi : c.Is rule pair
    · exact .inl ⟨_, _, if_pos hi, if_pos ((c.is_swap rule pair).mpr hi)⟩
    · exact .inr ⟨_, _, if_neg hi, if_neg fun hi' => hi ((c.is_swap rule pair).mp hi')⟩
  | none =>
    rcases obtain?_swap rule pair h d with ⟨o, t', he, he'⟩ | ⟨c, c', he, he'⟩
    · refine .inl ⟨o, t'.modify o.id ({ · with isAnchor := true }), ?_, ?_⟩
      · simp only [he, Except.map]
      · have hmark :=
          t'.modify_swap (f := ({ · with isAnchor := true })) (g := ({ · with isAnchor := true }))
          (fun _ => rfl) o.id
        simp only [Option.map_none, he', Except.map, hmark]
    · refine .inr ⟨c, c', ?_, ?_⟩
      · simp only [he, Except.map]
      · simp only [Option.map_none, he', Except.map]

end Correspondences

end GraphSync
