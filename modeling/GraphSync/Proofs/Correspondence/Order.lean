import GraphSync.Proofs.Correspondence.Counterpart
import Mathlib.Data.List.Forall2
import Mathlib.Data.List.Nodup

namespace GraphSync

theorem insertIdx_eq {α : Type} {xs : List α} {i : Nat} (h : i ≤ xs.length) (x : α) :
    xs.insertIdx i x = xs.take i ++ x :: xs.drop i := by
  induction xs generalizing i with
  | nil =>
    obtain rfl := Nat.le_zero.mp h
    rfl
  | cons y ys ih =>
    cases i with
    | zero => rfl
    | succ i => simp [ih (Nat.le_of_succ_le_succ h)]

theorem forall₂_pairwise {α β : Type} {P : α → β → Prop} {T : α → α → Prop}
    {U : β → β → Prop} {xs : List α} {ys : List β} (h : List.Forall₂ P xs ys)
    (hp : ∀ x y x' y', P x y → P x' y' → T x x' → U y y') (hx : xs.Pairwise T) :
    ys.Pairwise U := by
  induction h with
  | nil => exact .nil
  | @cons x y xs ys hxy h ih =>
    obtain ⟨hfirst, hrest⟩ := List.pairwise_cons.mp hx
    refine List.pairwise_cons.mpr ⟨fun y' hy' => ?_, ih hrest⟩
    obtain ⟨i, hi, rfl⟩ := List.getElem_of_mem hy'
    have hi' : i < xs.length := h.length_eq ▸ hi
    exact hp x y _ _ hxy (h.get hi' hi) (hfirst _ (List.getElem_mem hi'))

section Places

variable {α : Type} [DecidableEq α] {xs front back : List α} {x e : α}

theorem pairwise_idxOf (h : xs.Nodup) : xs.Pairwise fun x x' => xs.idxOf x < xs.idxOf x' := by
  rw [List.pairwise_iff_getElem]
  intro i j hi hj hij
  rwa [h.idxOf_getElem, h.idxOf_getElem]

/-- What stands before an element, and what stands after it. -/
theorem mem_of_idxOf_ne (h : (front ++ e :: back).Nodup) (hx : x ∈ front ++ e :: back) :
    ((front ++ e :: back).idxOf x < (front ++ e :: back).idxOf e → x ∈ front) ∧
      ((front ++ e :: back).idxOf e < (front ++ e :: back).idxOf x → x ∈ back) := by
  have hnot : e ∉ front := fun he => (List.nodup_append.mp h).2.2 e he e (by simp) rfl
  have he : (front ++ e :: back).idxOf e = front.length := by
    simp [List.idxOf_append_of_notMem hnot]
  rw [he]
  rcases List.mem_append.mp hx with hfront | hback
  · have hlt := List.idxOf_lt_length_of_mem hfront
    rw [List.idxOf_append_of_mem hfront]
    exact ⟨fun _ => hfront, fun hgt => absurd hlt (Nat.lt_asymm hgt)⟩
  · have hge : front.length ≤ (front ++ e :: back).idxOf x := by
      rw [List.idxOf_append_of_notMem fun hf => (List.nodup_append.mp h).2.2 x hf x hback rfl]
      exact Nat.le_add_right _ _
    refine ⟨fun hlt => absurd hge (Nat.not_le.mpr hlt), fun hgt => ?_⟩
    rcases List.mem_cons.mp hback with rfl | hback
    · exact absurd (he ▸ hgt) (Nat.lt_irrefl _)
    · exact hback

/-- Lists with the same elements, both in the order of a third one, are the same. -/
theorem eq_of_pairwise_idxOf {zs ys : List α}
    (hy : ys.Pairwise fun y y' => xs.idxOf y < xs.idxOf y')
    (hz : zs.Pairwise fun z z' => xs.idxOf z < xs.idxOf z') (hm : ∀ y, y ∈ ys ↔ y ∈ zs) :
    ys = zs := by
  have nodup {l : List α} (hl : l.Pairwise fun y y' => xs.idxOf y < xs.idxOf y') : l.Nodup :=
    hl.imp fun hlt he => by simp [he] at hlt
  refine List.Perm.eq_of_pairwise (fun a b _ _ hab hba => absurd hab (Nat.lt_asymm hba)) hy hz ?_
  exact (List.perm_ext_iff_of_nodup (nodup hy) (nodup hz)).mpr hm

end Places

namespace Correspondences

variable {t t' : Correspondences} {s : Side} {xs ys earlier later : List ElementId}
  {m x y : ElementId}

theorem getElem_of_position? {i : Nat} (h : t.position? s ys m = some i) :
    ∃ (hi : i < ys.length), ys[i] ∈ t.partners s m := by
  obtain ⟨y, hy, hi⟩ := List.exists_of_findSome?_eq_some h
  obtain ⟨hlt, he, _⟩ := List.idxOf?_eq_some_iff.mp hi
  exact ⟨hlt, he.symm ▸ hy⟩

theorem notMem_of_position? (h : t.position? s ys m = none) (hy : y ∈ t.partners s m) :
    y ∉ ys :=
  List.idxOf?_eq_none_iff.mp (List.findSome?_eq_none_iff.mp h y hy)

/-- The counterparts of elements of `xs` stand in `ys` in the order of `xs`, at most one of each
element. -/
def InOrder (t : Correspondences) (s : Side) (xs ys : List ElementId) : Prop :=
  ys.Pairwise fun y y' => ∀ x ∈ xs, ∀ x' ∈ xs, y ∈ t.partners s x →
    y' ∈ t.partners s x' → xs.idxOf x < xs.idxOf x'

instance (t : Correspondences) (s : Side) (xs ys : List ElementId) :
    Decidable (t.InOrder s xs ys) :=
  inferInstanceAs (Decidable (List.Pairwise _ ys))

namespace InOrder

theorem mono (h : t.InOrder s xs ys) {ys' : List ElementId} (hs : ys'.Sublist ys)
    (hp : ∀ y ∈ ys', ∀ x, y ∈ t'.partners s x → y ∈ t.partners s x) :
    t'.InOrder s xs ys' :=
  (List.Pairwise.sublist hs h).imp_of_mem fun hy hy' hlt x hx x' hx' hxy hxy' =>
    hlt x hx x' hx' (hp _ hy x hxy) (hp _ hy' x' hxy')

/-- The elements before the slot are no counterparts of later members, and those after it none of
earlier ones. -/
theorem of_slot (h : t.InOrder s xs ys) (hxs : xs = earlier.reverse ++ m :: later)
    (hnodup : xs.Nodup) (hm : ∀ y ∈ t.partners s m, y ∉ ys)
    (hsole : ∀ y ∈ ys, ∀ x x', y ∈ t.partners s x → y ∈ t.partners s x' → x = x') :
    (∀ y ∈ ys.take (t.slot s ys earlier later), ∀ x ∈ xs, y ∈ t.partners s x →
      x ∈ earlier) ∧
      ∀ y ∈ ys.drop (t.slot s ys earlier later), ∀ x ∈ xs, y ∈ t.partners s x →
        x ∈ later := by
  have step {i j : Nat} {hi : i < ys.length} {hj : j < ys.length} (hij : i < j) {x x' : ElementId}
      (hx : x ∈ xs) (hx' : x' ∈ xs) (hxi : ys[i] ∈ t.partners s x)
      (hxj : ys[j] ∈ t.partners s x') : xs.idxOf x < xs.idxOf x' :=
    List.pairwise_iff_getElem.mp h i j hi hj hij x hx x' hx' hxi hxj
  unfold slot
  cases he : earlier.findSome? (t.position? s ys) with
  | some i =>
    -- `e` is the nearest earlier sibling with a counterpart
    obtain ⟨near, e, far, rfl, hpos, hnear⟩ := List.findSome?_eq_some_iff.mp he
    obtain ⟨hi, hei⟩ := getElem_of_position? hpos
    have hsplit : xs = far.reverse ++ e :: (near.reverse ++ m :: later) := by rw [hxs]; simp
    have hmem : e ∈ xs := by rw [hsplit]; simp
    refine ⟨fun y hy x hx hxy => ?_, fun y hy x hx hxy => ?_⟩
    · obtain ⟨j, hj, rfl⟩ := List.mem_take_iff_getElem.mp hy
      rcases Nat.lt_or_eq_of_le
        (Nat.le_of_lt_succ (Nat.lt_of_lt_of_le hj (Nat.min_le_left _ _))) with hlt | rfl
      · have hfar :=
          (mem_of_idxOf_ne (hsplit ▸ hnodup) (hsplit ▸ hx)).1
            (hsplit ▸ step hlt hx hmem hxy hei)
        simp [List.mem_reverse.mp hfar]
      · rw [hsole _ (List.getElem_mem hi) x e hxy hei]
        simp
    · obtain ⟨j, hj, rfl⟩ := List.mem_drop_iff_getElem.mp hy
      have hafter := (mem_of_idxOf_ne (hsplit ▸ hnodup) (hsplit ▸ hx)).2
        (hsplit ▸ step (show i < i + 1 + j by omega) hmem hx hei hxy)
      rcases List.mem_append.mp hafter with hx | hx
      · exact absurd (List.getElem_mem _)
          (notMem_of_position? (hnear x (List.mem_reverse.mp hx)) hxy)
      rcases List.mem_cons.mp hx with rfl | hx
      · exact absurd (List.getElem_mem _) (hm _ hxy)
      · exact hx
  | none =>
    have hearlier := List.findSome?_eq_none_iff.mp he
    cases hl : later.findSome? (t.position? s ys) with
    | some i =>
      -- `l` is the nearest later sibling with a counterpart
      obtain ⟨near, l, far, rfl, hpos, hnear⟩ := List.findSome?_eq_some_iff.mp hl
      obtain ⟨hi, hli⟩ := getElem_of_position? hpos
      have hsplit : xs = (earlier.reverse ++ m :: near) ++ l :: far := by rw [hxs]; simp
      have hmem : l ∈ xs := by rw [hsplit]; simp
      refine ⟨fun y hy x hx hxy => ?_, fun y hy x hx hxy => ?_⟩
      · obtain ⟨j, hj, rfl⟩ := List.mem_take_iff_getElem.mp hy
        have hlt : j < i := Nat.lt_of_lt_of_le hj (Nat.min_le_left _ _)
        have hbefore :=
          (mem_of_idxOf_ne (hsplit ▸ hnodup) (hsplit ▸ hx)).1
            (hsplit ▸ step hlt hx hmem hxy hli)
        rcases List.mem_append.mp hbefore with hx | hx
        · exact List.mem_reverse.mp hx
        rcases List.mem_cons.mp hx with rfl | hx
        · exact absurd (List.getElem_mem _) (hm _ hxy)
        · exact absurd (List.getElem_mem _) (notMem_of_position? (hnear x hx) hxy)
      · obtain ⟨j, hj, rfl⟩ := List.mem_drop_iff_getElem.mp hy
        rcases Nat.eq_zero_or_pos j with rfl | hpos
        · rw [hsole _ (List.getElem_mem hi) x l hxy hli]
          simp
        · have hfar := (mem_of_idxOf_ne (hsplit ▸ hnodup) (hsplit ▸ hx)).2
            (hsplit ▸ step (show i < i + j by omega) hmem hx hli hxy)
          simp [hfar]
    | none =>
      have hlater := List.findSome?_eq_none_iff.mp hl
      refine ⟨fun y hy x hx hxy => ?_, fun y hy => ?_⟩
      · have hy := List.mem_of_mem_take hy
        rw [hxs] at hx
        rcases List.mem_append.mp hx with hx | hx
        · exact List.mem_reverse.mp hx
        rcases List.mem_cons.mp hx with rfl | hx
        · exact absurd hy (hm _ hxy)
        · exact absurd hy (notMem_of_position? (hlater x hx) hxy)
      · simp at hy

/-- A counterpart that is put into its slot keeps the order. -/
theorem insertIdx (h : t.InOrder s xs ys) (hxs : xs = earlier.reverse ++ m :: later)
    (hnodup : xs.Nodup) (hm : ∀ y ∈ t.partners s m, y ∉ ys)
    (hsole : ∀ y ∈ ys, ∀ x x', y ∈ t.partners s x → y ∈ t.partners s x' → x = x')
    (hold : ∀ z ∈ ys, ∀ x, z ∈ t'.partners s x → z ∈ t.partners s x)
    (hnew : ∀ x, y ∈ t'.partners s x → x = m) :
    t'.InOrder s xs (ys.insertIdx (t.slot s ys earlier later) y) := by
  obtain ⟨hbefore, hafter⟩ := h.of_slot hxs hnodup hm hsole
  have hnodup' : (earlier.reverse ++ m :: later).Nodup := hxs ▸ hnodup
  have lt_of_earlier {x : ElementId} (hx : x ∈ earlier) : xs.idxOf x < xs.idxOf m := by
    have hpair := pairwise_idxOf hnodup'
    rw [hxs]
    exact (List.pairwise_append.mp hpair).2.2 x (List.mem_reverse.mpr hx) m (by simp)
  have lt_of_later {x : ElementId} (hx : x ∈ later) : xs.idxOf m < xs.idxOf x := by
    have hpair := (List.pairwise_append.mp (pairwise_idxOf hnodup')).2.1
    rw [hxs]
    exact (List.pairwise_cons.mp hpair).1 x hx
  have hall : t'.InOrder s xs ys := h.mono (.refl _) hold
  rw [insertIdx_eq (t.slot_le s ys earlier later) y]
  rw [InOrder, ← List.take_append_drop (t.slot s ys earlier later) ys,
    List.pairwise_append] at hall
  obtain ⟨hfront, hback, hacross⟩ := hall
  refine List.pairwise_append.mpr ⟨hfront, List.pairwise_cons.mpr ⟨?_, hback⟩, ?_⟩
  · intro z hz x _ x' hx' hxy hxz
    rw [hnew x hxy]
    exact lt_of_later (hafter z hz x' hx' (hold z (List.mem_of_mem_drop hz) x' hxz))
  · intro z hz z' hz'
    rcases List.mem_cons.mp hz' with rfl | hz'
    · intro x hx x' _ hxz hxy
      rw [hnew x' hxy]
      exact lt_of_earlier (hbefore z hz x hx (hold z (List.mem_of_mem_take hz) x hxz))
    · exact hacross z hz z' hz'

end InOrder

/-- The elements of `ys` that take part in a correspondence are, one by one, counterparts of the
elements of `xs`. The root, which is paired with the other root only, is a counterpart of
nothing. -/
def Lists (t : Correspondences) (s : Side) (xs ys : List ElementId) : Prop :=
  List.Forall₂ (fun x y => ∃ c ∈ t.members, c.element s = x ∧ c.element s.other = y) xs
    (ys.filter fun y => t.partners s.other y ≠ [])

instance (t : Correspondences) (s : Side) (xs ys : List ElementId) : Decidable (t.Lists s xs ys) :=
  inferInstanceAs (Decidable (List.Forall₂ _ xs _))

theorem partners_ne_nil (hy : y ∈ t.partners s x) : t.partners s.other y ≠ [] := by
  obtain ⟨c, hc, hx, hy⟩ := mem_partners.mp hy
  refine List.ne_nil_of_mem (mem_partners.mpr ⟨c, hc, hy, ?_⟩ : x ∈ _)
  rw [Side.other_other, hx]

theorem Lists.exists_mem (h : t.Lists s xs ys) (hy : y ∈ ys) (hn : t.partners s.other y ≠ []) :
    ∃ c ∈ t.members, c.element s.other = y := by
  obtain ⟨i, hi, rfl⟩ := List.getElem_of_mem (List.mem_filter.mpr ⟨hy, by simpa using hn⟩ :
    y ∈ ys.filter fun y => t.partners s.other y ≠ [])
  obtain ⟨c, hc, _, hcy⟩ := h.get (h.length_eq ▸ hi) hi
  exact ⟨c, hc, hcy⟩

/-- Two records that list counterparts of the same elements do so one by one. -/
theorem Lists.alike {ys' : List ElementId} (h : t.Lists s xs ys) (h' : t'.Lists s xs ys') :
    List.Forall₂ (fun y y' => ∃ x, y ∈ t.partners s x ∧ y' ∈ t'.partners s x)
      (ys.filter fun y => t.partners s.other y ≠ [])
      (ys'.filter fun y => t'.partners s.other y ≠ []) := by
  refine List.forall₂_iff_get.mpr ⟨h.length_eq.symm.trans h'.length_eq, fun i hi hi' => ?_⟩
  have hx : i < xs.length := h.length_eq ▸ hi
  obtain ⟨c, hc, hcx, hcy⟩ := h.get hx hi
  obtain ⟨c', hc', hcx', hcy'⟩ := h'.get hx hi'
  exact ⟨xs.get ⟨i, hx⟩, mem_partners.mpr ⟨c, (List.mem_filter.mp hc).1, hcx, hcy⟩,
    mem_partners.mpr ⟨c', (List.mem_filter.mp hc').1, hcx', hcy'⟩⟩

/-- Elements that stay in a list in their order keep their counterparts in order. -/
theorem Lists.inOrder {zs xs' : List ElementId} (h : t.Lists s zs ys) (hz : zs.Sublist xs)
    (hstay : (xs.filter (· ∈ xs')).Sublist xs') (hnodup : xs'.Nodup)
    (hsole : ∀ y ∈ ys, ∀ x x', y ∈ t.partners s x → y ∈ t.partners s x' → x = x') :
    t.InOrder s xs' ys := by
  have hkept : (zs.filter (· ∈ xs')).Pairwise fun z z' => xs'.idxOf z < xs'.idxOf z' :=
    (pairwise_idxOf hnodup).sublist ((hz.filter _).trans hstay)
  have hpair :=
    forall₂_pairwise (U := fun y y' => ∀ x ∈ xs', ∀ x' ∈ xs', y ∈ ys → y' ∈ ys →
    y ∈ t.partners s x → y' ∈ t.partners s x' → xs'.idxOf x < xs'.idxOf x') h ?_
    (List.pairwise_filter.mp hkept)
  · refine (List.pairwise_filter.mp hpair).imp_of_mem ?_
    intro y y' hy hy' hlt x hx x' hx' hxy hxy'
    exact hlt (by simpa using partners_ne_nil hxy) (by simpa using partners_ne_nil hxy')
      x hx x' hx' hy hy' hxy hxy'
  · rintro z y z' y' ⟨c, hc, hcz, hcy⟩ ⟨c', hc', hcz', hcy'⟩
      hlt x hx x' hx' hy hy' hxy hxy'
    have hzy : y ∈ t.partners s z := mem_partners.mpr ⟨c, (List.mem_filter.mp hc).1, hcz, hcy⟩
    have hzy' : y' ∈ t.partners s z' :=
      mem_partners.mpr ⟨c', (List.mem_filter.mp hc').1, hcz', hcy'⟩
    obtain rfl := hsole y hy x z hxy hzy
    obtain rfl := hsole y' hy' x' z' hxy' hzy'
    exact hlt (by simpa using hx) (by simpa using hx')

/-- The counterparts of elements of `xs` in `ys` are, one by one, counterparts of the elements of
`xs`. -/
def Tracks (t : Correspondences) (s : Side) (xs ys : List ElementId) : Prop :=
  List.Forall₂ (fun x y => y ∈ t.partners s x) xs
    (ys.filter fun y => ∃ x ∈ xs, y ∈ t.partners s x)

instance (t : Correspondences) (s : Side) (xs ys : List ElementId) : Decidable (t.Tracks s xs ys) :=
  inferInstanceAs (Decidable (List.Forall₂ _ xs _))

/-- If each element of `xs` has a counterpart in `ys`, and these are in order, there is one of
each. -/
theorem InOrder.tracks (h : t.InOrder s xs ys) (hnodup : xs.Nodup)
    (hsole : ∀ y ∈ ys, ∀ x x', y ∈ t.partners s x → y ∈ t.partners s x' → x = x')
    (hall : ∀ x ∈ xs, ∃ y ∈ ys, y ∈ t.partners s x) : t.Tracks s xs ys := by
  let zs := ys.filter fun y => ∃ x ∈ xs, y ∈ t.partners s x
  have hfound : ∀ y ∈ zs, ∃ x, y ∈ ys ∧ x ∈ xs ∧ y ∈ t.partners s x := by
    intro y hy
    obtain ⟨hin, hex⟩ := List.mem_filter.mp hy
    obtain ⟨x, hx, hxy⟩ : ∃ x ∈ xs, y ∈ t.partners s x := by simpa using hex
    exact ⟨x, hin, hx, hxy⟩
  choose! f hf using hfound
  have hxs : xs = zs.map f := by
    refine eq_of_pairwise_idxOf (pairwise_idxOf hnodup) ?_ fun x => ⟨fun hx => ?_, fun hx => ?_⟩
    · refine List.pairwise_map.mpr ((List.Pairwise.sublist List.filter_sublist h).imp_of_mem ?_)
      intro y y' hy hy' hlt
      exact hlt _ (hf y hy).2.1 _ (hf y' hy').2.1 (hf y hy).2.2 (hf y' hy').2.2
    · obtain ⟨y, hy, hxy⟩ := hall x hx
      have hmem : y ∈ zs := List.mem_filter.mpr ⟨hy, by simpa using ⟨x, hx, hxy⟩⟩
      exact List.mem_map.mpr ⟨y, hmem, hsole y hy _ x (hf y hmem).2.2 hxy⟩
    · obtain ⟨y, hy, rfl⟩ := List.mem_map.mp hx
      exact (hf y hy).2.1
  change List.Forall₂ _ xs zs
  rw [hxs, List.forall₂_map_left_iff, List.forall₂_same]
  exact fun y hy => (hf y hy).2.2

/-- If the counterparts in `ys` are those of the elements of `xs`, in order, and nothing else there
takes part in a correspondence, `ys` lists them. -/
theorem InOrder.lists (h : t.InOrder s xs ys) (hnodup : xs.Nodup)
    (hsole : ∀ y ∈ ys, ∀ x x', y ∈ t.partners s x → y ∈ t.partners s x' → x = x')
    (hall : ∀ x ∈ xs, ∃ y ∈ ys, y ∈ t.partners s x)
    (hcovered : ∀ y ∈ ys, t.partners s.other y ≠ [] → ∃ x ∈ xs, y ∈ t.partners s x)
    (hinner : ∀ c ∈ t.entries, c.element s.other ∈ ys → c.isAnchor = false) :
    t.Lists s xs ys := by
  have hsame : ys.filter (fun y => t.partners s.other y ≠ []) = ys.filter fun y => ∃ x ∈ xs,
      y ∈ t.partners s x := by
    refine List.filter_congr fun y hy => ?_
    have hiff : t.partners s.other y ≠ [] ↔ ∃ x ∈ xs, y ∈ t.partners s x :=
      ⟨hcovered y hy, fun ⟨_, _, hxy⟩ => partners_ne_nil hxy⟩
    simp only [hiff]
  rw [Lists, hsame]
  have htracks := List.forall₂_iff_get.mp (h.tracks hnodup hsole hall)
  refine List.forall₂_iff_get.mpr ⟨htracks.1, fun i hi hi' => ?_⟩
  obtain ⟨c, hc, hcx, hcy⟩ := mem_partners.mp (htracks.2 i hi hi')
  have hy := List.mem_of_mem_filter (List.get_mem _ ⟨i, hi'⟩)
  exact ⟨c, List.mem_filter.mpr ⟨hc, by simp [hinner c hc (hcy ▸ hy)]⟩, hcx, hcy⟩

end Correspondences

end GraphSync
