import GraphSync.Proofs.Graph.Sound

namespace GraphSync

namespace Dict

variable {κ α : Type} [Ord κ]

/-- What the entries weigh together. -/
def weight (f : α → Nat) (d : Dict κ α) : Nat := d.entries.foldr (fun e n => f e.2 + n) 0

theorem ne_of_lt [Std.TransOrd κ] {k k' : κ} (h : compare k k' = .lt) : k ≠ k' := by
  rintro rfl
  have hself : compare k k = .eq := Std.ReflCmp.compare_self
  rw [hself] at h
  cases h

variable [DecidableEq κ] [Std.TransOrd κ] (f : α → Nat)

theorem weight_insert [Std.LawfulEqOrd κ] (d : Dict κ α) (k : κ) (v : α) :
    (d.insert k v).weight f + ((d.get? k).map f).getD 0 = d.weight f + f v := by
  obtain ⟨l, hl⟩ := d
  simp only [weight, insert, get?]
  induction l with
  | nil => simp [put]
  | cons a l ih =>
    obtain ⟨ha, hl'⟩ := List.pairwise_cons.mp hl
    unfold put
    split
    · rename_i hc
      have hnone : (a :: l).find? (fun e => decide (e.1 = k)) = none := by
        refine List.find?_eq_none.mpr fun b hb => ?_
        rw [decide_eq_true_eq]
        rcases List.mem_cons.mp hb with rfl | hb
        · exact (ne_of_lt hc).symm
        · exact (ne_of_lt (Std.TransCmp.lt_trans hc (ha b hb))).symm
      rw [hnone]
      simp [Nat.add_comm]
    · rename_i hc
      obtain rfl : k = a.1 := Std.LawfulEqOrd.eq_of_compare hc
      simp only [List.foldr_cons, List.find?_cons, decide_true]
      simp
      omega
    · rename_i hc
      have hka : a.1 ≠ k := ne_of_lt (Std.OrientedCmp.lt_of_gt hc)
      have hrest := ih hl'
      simp only [List.foldr_cons, List.find?_cons, hka, decide_false]
      omega

theorem weight_erase (d : Dict κ α) (k : κ) :
    (d.erase k).weight f + ((d.get? k).map f).getD 0 = d.weight f := by
  obtain ⟨l, hl⟩ := d
  simp only [weight, erase, get?]
  induction l with
  | nil => rfl
  | cons a l ih =>
    obtain ⟨ha, hl'⟩ := List.pairwise_cons.mp hl
    by_cases hk : a.1 = k
    · have hrest : l.filter (fun e => decide (e.1 ≠ k)) = l := by
        refine List.filter_eq_self.mpr fun b hb => ?_
        rw [decide_eq_true_eq, ← hk]
        exact (ne_of_lt (ha b hb)).symm
      have hfind : (a :: l).find? (fun e => decide (e.1 = k)) = some a :=
        List.find?_cons_of_pos (by simpa using hk)
      rw [List.filter_cons_of_neg (by simpa using hk), hrest, hfind]
      simp [Nat.add_comm]
    · have hrest := ih hl'
      simp only [List.filter_cons, List.find?_cons, hk, decide_false, ne_eq, not_false_eq_true,
        decide_true, if_true, List.foldr_cons]
      simp only [ne_eq] at hrest
      omega

end Dict

namespace Element

/-- The number of members that the roles of an element have together. -/
def links (e : Element) : Nat := e.roles.weight List.length

@[simp] theorem links_setValue (e : Element) (name : AttributeName) (v : Value) :
    (e.setValue name v).links = e.links := rfl

theorem links_setTargets (e : Element) (role : RoleName) (ts : List ElementId) :
    (e.setTargets role ts).links + (e.targets role).length = e.links + ts.length := by
  have hold : (e.targets role).length = ((e.roles.get? role).map List.length).getD 0 := by
    unfold targets
    cases e.roles.get? role <;> rfl
  rw [hold]
  by_cases hts : ts = []
  · subst hts
    simpa [links, setTargets] using e.roles.weight_erase List.length role
  · simpa [links, setTargets, hts] using e.roles.weight_insert List.length role ts

end Element

namespace Graph

variable {g g' : Graph}

/-- The number of members that all roles have together. -/
def links (g : Graph) : Nat := g.elements.foldr (fun e n => e.links + n) 0

@[simp] theorem links_record (g : Graph) (c : Change) : (g.record c).links = g.links := by
  unfold record
  split <;> rfl

@[simp] theorem size_record (g : Graph) (c : Change) : (g.record c).size = g.size := by
  unfold record
  split <;> rfl

@[simp] theorem size_modify (g : Graph) (x : ElementId) (f : Element → Element) :
    (g.modify x f).size = g.size :=
  List.length_map ..

/-- Changing one element changes what it adds to the sum. -/
theorem links_modify (hn : g.ids.Nodup) {x : ElementId} {e : Element} (hx : g.element? x = some e)
    (f : Element → Element) : (g.modify x f).links + e.links = g.links + (f e).links := by
  unfold links modify
  unfold element? at hx
  unfold ids at hn
  generalize g.elements = l at hn hx
  dsimp only
  induction l with
  | nil => cases hx
  | cons a l ih =>
    obtain ⟨ha, hl⟩ := List.nodup_cons.mp hn
    by_cases hid : a.id = x
    · rw [List.find?_cons_of_pos (by simpa using hid)] at hx
      cases hx
      have hrest : l.map (fun e => if e.id = x then f e else e) = l := by
        refine (List.map_congr_left (g := id) fun b hb => if_neg fun hb' => ha ?_).trans
          (List.map_id _)
        exact List.mem_map.mpr ⟨b, hb, hb'.trans hid.symm⟩
      simp only [List.map_cons, List.foldr_cons, hid, if_true, hrest]
      omega
    · rw [List.find?_cons_of_neg (by simpa using hid)] at hx
      have hrest := ih hl hx
      simp only [List.map_cons, List.foldr_cons, hid, if_false]
      omega

theorem counts_setValue (h : g.Sound) {x : ElementId} {name : AttributeName} {v before : Value}
    (hr : g.setValue x name v = .ok (before, g')) : g'.size = g.size ∧ g'.links = g.links := by
  cases hx : g.element? x with
  | none => simp [setValue, element_eq, hx, bind, Except.bind] at hr
  | some e =>
    have hlinks := links_modify h.ids_nodup hx (·.setValue name v)
    simp only [setValue, element_eq, hx, bind, Except.bind, pure, Except.pure, Except.ok.injEq,
      Prod.mk.injEq] at hr
    rw [← hr.2]
    rw [Element.links_setValue] at hlinks
    split
    · exact ⟨size_modify _ _ _, Nat.add_right_cancel hlinks⟩
    · rw [size_record, links_record]
      exact ⟨size_modify _ _ _, Nat.add_right_cancel hlinks⟩

/-- A target that was put into a role counts once. -/
theorem counts_insertReference (h : g.Sound) {owner target : ElementId} {role : RoleName}
    {index : Nat} {b : Bool} (hn : target ∉ g.members owner role)
    (hr : g.insertReference owner role index target = .ok (b, g')) :
    g'.size = g.size ∧ g'.links = g.links + 1 := by
  cases ht : g.element? target with
  | none => simp [insertReference, element_eq, ht, bind, Except.bind] at hr
  | some t =>
    cases ho : g.element? owner with
    | none => simp [insertReference, element_eq, ht, ho, bind, Except.bind] at hr
    | some e =>
      have hm : g.members owner role = e.targets role := by simp [members, ho]
      rw [hm] at hn
      simp only [insertReference, element_eq, ht, ho, bind, Except.bind, pure, Except.pure,
        if_neg hn] at hr
      split at hr
      · cases hr
      · rename_i hi
        cases hr
        have hlinks :=
          links_modify h.ids_nodup ho (·.setTargets role ((e.targets role).insertIdx index target))
        have helement := e.links_setTargets role ((e.targets role).insertIdx index target)
        rw [List.length_insertIdx_of_le_length (Nat.le_of_not_lt hi)] at helement
        rw [size_record, links_record, size_modify]
        exact ⟨rfl, by omega⟩

/-- So does one that was taken out. -/
theorem counts_dropReference (h : g.Sound) {owner target : ElementId} {role : RoleName}
    (hm : target ∈ g.members owner role) : (g.dropReference owner role target).size = g.size ∧
      (g.dropReference owner role target).links + 1 = g.links := by
  obtain ⟨e, he⟩ := contains_iff.mp (contains_of_mem_members hm)
  have htargets : g.members owner role = e.targets role := by simp [members, he]
  rw [htargets] at hm
  obtain ⟨index, hi⟩ := Option.isSome_iff_exists.mp (List.isSome_idxOf?.mpr hm)
  have hlt : index < (e.targets role).length := (List.idxOf?_eq_some_iff.mp hi).1
  have hlinks := links_modify h.ids_nodup he (·.setTargets role ((e.targets role).eraseIdx index))
  have helement := e.links_setTargets role ((e.targets role).eraseIdx index)
  rw [List.length_eraseIdx_of_lt hlt] at helement
  simp only [dropReference, he, Option.map_some, Option.getD_some, hi, size_record, links_record,
    size_modify]
  exact ⟨trivial, by omega⟩

theorem counts_add (g : Graph) (kind : TypeName) :
    (g.add kind).2.size = g.size + 1 ∧ (g.add kind).2.links = g.links := by
  simp [add, size, links, Element.links, Dict.weight, EmptyCollection.emptyCollection, Dict.empty]

end Graph

end GraphSync
