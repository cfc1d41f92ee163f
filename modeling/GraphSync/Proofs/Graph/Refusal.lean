import GraphSync.Proofs.Graph.Arena

namespace GraphSync

namespace Graph

variable {g g' : Graph}

/-- An edit that answers `false` has changed nothing. -/
theorem eq_of_perform_false {e : Edit} (hr : g.perform e = .ok (.changed false, g')) : g' = g := by
  have insertion {owner target : ElementId} {role : RoleName} {index : Nat}
      (hr : g.insertReference owner role index target = .ok (false, g')) : g' = g := by
    rcases insertReference_cases g owner target role index with ⟨_, he⟩ | he | ⟨ho, ht, hn, hi⟩
    · cases he.symm.trans hr
    · cases he.symm.trans hr
      rfl
    · obtain ⟨_, he, _⟩ := insertReference_ok ho ht hn hi
      cases he.symm.trans hr
  cases e with
  | push owner role target =>
    cases performs_of_ok hr with
    | push write => exact insertion write
  | insert owner role index target =>
    cases performs_of_ok hr with
    | insert write => exact insertion write
  | unlink owner role target =>
    simp only [perform, removeReference_eq] at hr
    split at hr
    · obtain ⟨hb, rfl⟩ := Prod.mk.inj (Except.ok.inj hr)
      have hnot : target ∉ g.members owner role := by simpa using hb
      rcases dropReference_cases g owner target role with ⟨_, hg⟩ | ⟨hin, _⟩
      · exact hg
      · exact absurd hin hnot
    · cases hr
  | add | set | remove => cases performs_of_ok hr

end Graph

namespace Arena

variable {a : Arena} {g : Graph}

/-- A refused edit leaves what callers see as it was. -/
theorem Shows.refuses (h : a.Shows g) {e : Edit} (hr : a.Refuses e) : (a.perform e).2.Shows g := by
  have hagree := h.perform e
  unfold Refuses at hr
  generalize a.perform e = answer, hg : g.perform e = answer' at hagree hr
  cases hagree with
  | refused err h' => exact h'
  | done o h' =>
    have ho : o = .changed false := by simpa using hr
    subst ho
    exact Graph.eq_of_perform_false hg ▸ h'

/-- What an insertion answers: a target that is there is found before the index is looked at. -/
theorem insertReference_answer {owner target : ElementId} {role : RoleName} {ts : List ElementId}
    (hts : a.ask (.references owner role) = .ok ts) (ht : a.ask (.contains target) = true)
    (index : Nat) :
    (a.insertReference owner role index target).1 =
      if target ∈ ts then .ok false
      else if ts.length < index then .error (.indexOutOfBounds owner role index ts.length)
      else .ok true := by
  obtain ⟨t, ht⟩ := Option.isSome_iff_exists.mp ht
  have htarget : a.element target = .ok t := by rw [element, ht]
  have hts : (a.element owner).map (·.targets role) = .ok ts := hts
  cases he : a.element owner with
  | error err =>
    rw [he] at hts
    cases hts
  | ok e =>
    rw [he] at hts
    obtain rfl : e.targets role = ts := Except.ok.inj hts
    simp only [insertReference, htarget, he]
    split
    · rfl
    · split <;> rfl

/-- Whatever was done to a new graph: an edit whose answer is an error or `false` leaves no
trace. -/
theorem refused_unseen (name : String) (kind : TypeName) (ops : List Graph.Operation) :
    let a := ((Arena.new name kind).operateAll ops).2
    (∀ e, a.Refuses e → ∀ more,
      ((a.perform e).2.operateAll more).1 = (a.operateAll more).1 ∧
      ∀ q, ((a.perform e).2.operateAll more).2.ask q = (a.operateAll more).2.ask q) ∧
    ∀ owner role index target ts, a.ask (.references owner role) = .ok ts →
      a.ask (.contains target) = true → (a.insertReference owner role index target).1 =
        if target ∈ ts then .ok false
        else if ts.length < index then .error (.indexOutOfBounds owner role index ts.length)
        else .ok true := by
  intro a
  have h : a.Shows _ := ((Shows.new name kind).operateAll ops).2
  refine ⟨fun e hr more => ?_, fun owner role index target ts hts ht =>
    insertReference_answer hts ht index⟩
  obtain ⟨hlog, h'⟩ := h.operateAll more
  obtain ⟨hlog', h''⟩ := (h.refuses hr).operateAll more
  exact ⟨hlog'.trans hlog.symm, fun q => (h''.ask q).trans (h'.ask q).symm⟩

/-- An index that is out of bounds leaves an empty place for the role behind, which is never
seen. -/
theorem refused_unseen_reserved :
    let a := ((Arena.new "net" "Net").operateAll [.edit (.add "Node")]).2
    let e : Edit := .insert ⟨0⟩ "nodes" 1 ⟨1⟩
    (a.perform e).1 = .error (.indexOutOfBounds ⟨0⟩ "nodes" 1 0) ∧ (a.perform e).2 ≠ a ∧
      ∀ more, ((a.perform e).2.operateAll more).1 = (a.operateAll more).1 ∧
        ∀ q, ((a.perform e).2.operateAll more).2.ask q = (a.operateAll more).2.ask q :=
  ⟨by decide, by decide, (refused_unseen "net" "Net" [.edit (.add "Node")]).1 _ (.inl ⟨_, rfl⟩)⟩

end Arena

end GraphSync
