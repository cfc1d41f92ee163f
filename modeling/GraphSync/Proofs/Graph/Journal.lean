import GraphSync.Proofs.Graph.Sound

namespace GraphSync

/-- A member that the record speaks of, put into a role or taken out of one, has a handle below
`n`. -/
def Change.Before (c : Change) (n : Nat) : Prop :=
  ∀ role index target, c.effect = .referenceAdded role index target ∨
    c.effect = .referenceRemoved role index target → target.index < n

theorem Change.Before.mono {c : Change} {n m : Nat} (h : c.Before n) (hn : n ≤ m) : c.Before m :=
  fun role index target he => Nat.lt_of_lt_of_le (h role index target he) hn

namespace Graph

/-- One write, with what an observed graph records of it. Neither a new element nor a deletion is
recorded, and a deleted element is in no role any more. -/
inductive Write (g g' : Graph) : List Change → Prop where
  | add (kind : TypeName) (write : g' = (g.add kind).2) : Write g g' []
  | set {x : ElementId} {name : AttributeName} {v : Value} (live : g.contains x = true)
    (write : g.Rewrites g' x (·.setValue name v)) :
    Write g g'
      (if (g.reading x name).same v then [] else [⟨x, .attributeSet name (g.reading x name) v⟩])
  | insert {owner target : ElementId} {role : RoleName} {index : Nat}
    (live : g.contains target = true) (new : target ∉ g.members owner role)
    (le : index ≤ (g.members owner role).length) (owner_live : g.contains owner = true)
    (write : g.Relists g' owner role ((g.members owner role).insertIdx index target)) :
    Write g g' [⟨owner, .referenceAdded role index target⟩]
  | drop {owner target : ElementId} {role : RoleName} {index : Nat}
    (member : target ∈ g.members owner role)
    (write : g.Relists g' owner role ((g.members owner role).filter (· ≠ target)))
    (placed : (g.members owner role).idxOf? target = some index) :
    Write g g' [⟨owner, .referenceRemoved role index target⟩]
  | delete {x : ElementId} (inner : x ≠ g.root) (live : g.contains x = true)
    (unlisted : ∀ y role, x ∉ g.members y role) (write : g.Deletes g' x) : Write g g' []

theorem Write.follows {g g' : Graph} {cs : List Change} (h : g.Write g' cs) (hs : g.Sound) :
    g.Follows g' := by
  cases h with
  | add kind write => exact write ▸ hs.add kind
  | set live write => exact hs.setValue write
  | insert live new le owner_live write => exact hs.insertIdx write live new le
  | drop member write _ =>
    refine hs.relists write ((hs.members_nodup _ _).filter _) fun y hy => ?_
    exact hs.members_live _ _ y (List.mem_filter.mp hy).1
  | delete inner live unlisted write => exact hs.delete write inner unlisted

theorem Write.observed {g g' : Graph} {cs : List Change} (h : g.Write g' cs) :
    g'.observed = g.observed := by
  cases h with
  | add kind write => exact write ▸ rfl
  | set live write => exact write.observed
  | insert live new le owner_live write => exact write.observed
  | drop member write _ => exact write.observed
  | delete inner live unlisted write => exact write.observed

theorem Write.before {g g' : Graph} {cs : List Change} (h : g.Write g' cs) (hs : g.Sound) :
    ∀ c ∈ cs, c.Before g'.next := by
  intro c hc role index target he
  have hle := (h.follows hs).next_le
  cases h with
  | set live write =>
    split at hc
    · cases hc
    · rw [List.mem_singleton.mp hc] at he
      rcases he with he | he <;> cases he
  | insert live new le owner_live write =>
    rw [List.mem_singleton.mp hc] at he
    rcases he with he | he <;> cases he
    exact Nat.lt_of_lt_of_le (hs.live_lt _ live) hle
  | drop member write _ =>
    rw [List.mem_singleton.mp hc] at he
    rcases he with he | he <;> cases he
    exact Nat.lt_of_lt_of_le (hs.member_lt member) hle
  | add => cases hc
  | delete => cases hc

/-- A run of writes, with what an observed graph records of it. -/
inductive Logs (g : Graph) : List Change → Graph → Prop where
  | nil : Logs g [] g
  | snoc {cs cs' : List Change} {g' g'' : Graph} (run : Logs g cs g') (write : g'.Write g'' cs')
    (journal : g''.journal = g'.journal ++ if g'.observed then cs' else []) : Logs g (cs ++ cs') g''

namespace Logs

variable {g g' g'' : Graph} {cs cs' : List Change}

theorem observed (h : g.Logs cs g') : g'.observed = g.observed := by
  induction h with
  | nil => rfl
  | snoc _ hw _ ih => exact hw.observed.trans ih

theorem journal (h : g.Logs cs g') : g'.journal = g.journal ++ if g.observed then cs else [] := by
  induction h with
  | nil => simp
  | snoc run _ hj ih =>
    rw [hj, ih, run.observed]
    split <;> simp

theorem trans (h : g.Logs cs g') (h' : g'.Logs cs' g'') : g.Logs (cs ++ cs') g'' := by
  induction h' with
  | nil => simpa using h
  | snoc _ hw hj ih =>
    rw [← List.append_assoc]
    exact ih.snoc hw hj

theorem single (hw : g.Write g' cs) (hj : g'.journal = g.journal ++ if g.observed then cs else []) :
    g.Logs cs g' :=
  .snoc .nil hw hj

theorem follows (h : g.Logs cs g') (hs : g.Sound) : g.Follows g' := by
  induction h with
  | nil => exact hs.refl
  | snoc _ hw _ ih => exact ih.trans (hw.follows ih.sound)

/-- What is recorded speaks of elements that the graph has handed out. -/
theorem before (h : g.Logs cs g') (hs : g.Sound) : ∀ c ∈ cs, c.Before g'.next := by
  induction h with
  | nil => exact fun c hc => by cases hc
  | snoc run hw _ ih =>
    have hf := run.follows hs
    intro c hc
    rcases List.mem_append.mp hc with hc | hc
    · exact (ih c hc).mono (hw.follows hf.sound).next_le
    · exact hw.before hf.sound c hc

end Logs

/-- Where an element that was there before differs, the record says so, unless a value was replaced
by one equal to it. -/
structure Tells (g g' : Graph) (cs : List Change) : Prop where
  next_le : g.next ≤ g'.next
  live : ∀ x, x.index < g.next → g'.contains x = true → g.contains x = true
  reading : ∀ x name, x.index < g.next → g'.contains x = true →
    g'.reading x name = g.reading x name ∨
    (g.reading x name).same (g'.reading x name) = true ∨
    ∃ before after, ⟨x, .attributeSet name before after⟩ ∈ cs
  added : ∀ x role m, m ∈ g'.members x role → m ∈ g.members x role ∨
    ∃ index, ⟨x, .referenceAdded role index m⟩ ∈ cs
  removed : ∀ x role m, x.index < g.next → g'.contains x = true → m ∈ g.members x role →
    m ∈ g'.members x role ∨ ∃ index, ⟨x, .referenceRemoved role index m⟩ ∈ cs

namespace Tells

variable {g g' g'' : Graph} {cs cs' : List Change}

theorem refl (g : Graph) : g.Tells g [] :=
  ⟨Nat.le_refl _, fun _ _ hx => hx, fun _ _ _ _ => .inl rfl, fun _ _ _ hm => .inl hm,
    fun _ _ _ _ _ hm => .inl hm⟩

theorem trans (h : g.Tells g' cs) (h' : g'.Tells g'' cs') : g.Tells g'' (cs ++ cs') := by
  have live {x : ElementId} (hx : x.index < g.next) (hl : g''.contains x = true) :
      g'.contains x = true :=
    h'.live x (Nat.lt_of_lt_of_le hx h.next_le) hl
  refine ⟨Nat.le_trans h.next_le h'.next_le, fun x hx hl => h.live x hx (live hx hl),
    fun x name hx hl => ?_, fun x role m hm => ?_, fun x role m hx hl hm => ?_⟩
  · rcases h'.reading x name (Nat.lt_of_lt_of_le hx h.next_le)
      hl with he' | he' | ⟨before, after, hc⟩
    · rw [he']
      refine (h.reading x name hx (live hx hl)).imp_right (.imp_right ?_)
      exact fun ⟨before, after, hc⟩ => ⟨before, after, List.mem_append_left _ hc⟩
    · rcases h.reading x name hx (live hx hl) with he | he | ⟨before, after, hc⟩
      · exact .inr (.inl (he ▸ he'))
      · exact .inr (.inl (Value.same_trans he he'))
      · exact .inr (.inr ⟨before, after, List.mem_append_left _ hc⟩)
    · exact .inr (.inr ⟨before, after, List.mem_append_right _ hc⟩)
  · rcases h'.added x role m hm with hm | ⟨index, hc⟩
    · exact (h.added x role m hm).imp_right
        fun ⟨index, hc⟩ => ⟨index, List.mem_append_left _ hc⟩
    · exact .inr ⟨index, List.mem_append_right _ hc⟩
  · rcases h.removed x role m hx (live hx hl) hm with hm | ⟨index, hc⟩
    · refine (h'.removed x role m (Nat.lt_of_lt_of_le hx h.next_le) hl hm).imp_right ?_
      exact fun ⟨index, hc⟩ => ⟨index, List.mem_append_right _ hc⟩
    · exact .inr ⟨index, List.mem_append_left _ hc⟩

end Tells

/-- The members of one role change, and the record names each one that joins or leaves. -/
theorem Relists.tells {g g' : Graph} {cs : List Change} {owner : ElementId} {role : RoleName}
    {ts : List ElementId} (h : g.Relists g' owner role ts)
    (hadded : ∀ m ∈ ts, m ∈ g.members owner role ∨
      ∃ index, ⟨owner, .referenceAdded role index m⟩ ∈ cs)
    (hremoved : ∀ m ∈ g.members owner role, m ∈ ts ∨
      ∃ index, ⟨owner, .referenceRemoved role index m⟩ ∈ cs) :
    g.Tells g' cs := by
  refine ⟨Nat.le_of_eq h.next.symm, fun y _ hl => (h.contains y).symm.trans hl, fun y n _ _ =>
    .inl (h.reading y n), fun y r m hm => ?_, fun y r m _ _ hm => ?_⟩
  · rw [h.members] at hm
    split at hm
    · rename_i he
      obtain ⟨rfl, rfl⟩ := he
      exact hadded m hm
    · exact .inl hm
  · rw [h.members]
    split
    · rename_i he
      obtain ⟨rfl, rfl⟩ := he
      exact hremoved m hm
    · exact .inl hm

theorem Write.tells {g g' : Graph} {cs : List Change} (h : g.Write g' cs) (hs : g.Sound) :
    g.Tells g' cs := by
  have hle := (h.follows hs).next_le
  cases h with
  | add kind write =>
    subst write
    refine ⟨hle, fun x hx hl => ?_, fun x name _ _ => .inl (hs.reading_add kind x name),
      fun x role m hm => .inl ?_, fun x role m _ _ hm => .inl ?_⟩
    · rw [hs.contains_add, Bool.or_eq_true, decide_eq_true_eq] at hl
      refine hl.resolve_right fun he => ?_
      simp [he] at hx
    · rwa [hs.members_add] at hm
    · rwa [hs.members_add]
  | @set x name v live write =>
    refine ⟨hle, fun y _ hl => (write.contains y).symm.trans hl, fun y n _ _ => ?_,
      fun y role m hm => .inl ((write.members_setValue y role) ▸ hm),
      fun y role m _ _ hm => .inl ((write.members_setValue y role).symm ▸ hm)⟩
    rw [write.reading_setValue live]
    split
    · rename_i he
      obtain ⟨rfl, rfl⟩ := he
      split
      · rename_i hsame
        exact .inr (.inl hsame)
      · exact .inr (.inr ⟨_, _, List.mem_singleton_self _⟩)
    · exact .inl rfl
  | insert live new le owner_live write =>
    refine write.tells (fun m hm => ?_) fun m hm => .inl ((List.mem_insertIdx le).mpr (.inr hm))
    rcases (List.mem_insertIdx le).mp hm with rfl | hm
    · exact .inr ⟨_, List.mem_singleton_self _⟩
    · exact .inl hm
  | @drop owner target role index member write _ =>
    refine write.tells (fun m hm => .inl (List.mem_filter.mp hm).1) fun m hm => ?_
    by_cases hmt : m = target
    · exact .inr ⟨index, hmt ▸ List.mem_singleton_self _⟩
    · exact .inl (List.mem_filter.mpr ⟨hm, by simpa using hmt⟩)
  | @delete x inner live unlisted write =>
    refine ⟨hle, fun y _ hl => ((write.contains y).mp hl).2, fun y n _ hl => .inl ?_,
      fun y r m hm => .inl (write.mem_members hm), fun y r m _ hl hm => .inl ?_⟩
    · rw [Graph.reading, write.element?, if_neg ((write.contains y).mp hl).1]
      rfl
    · rwa [write.members, if_neg ((write.contains y).mp hl).1]

theorem Logs.tells {g g' : Graph} {cs : List Change} (h : g.Logs cs g') (hs : g.Sound) :
    g.Tells g' cs := by
  induction h with
  | nil => exact .refl g
  | snoc run write _ ih => exact ih.trans (write.tells (run.follows hs).sound)

variable {g g' : Graph}

theorem logs_setValue {x : ElementId} {name : AttributeName} {v before : Value}
    (hr : g.setValue x name v = .ok (before, g')) :
    ∃ cs, g.Logs cs g' ∧ ∀ y, g'.contains y = g.contains y := by
  obtain ⟨hlive, hw⟩ := rewrites_of_setValue hr
  refine ⟨_, .single (.set hlive hw) ?_, hw.contains⟩
  obtain ⟨e, hx⟩ := contains_iff.mp hlive
  have hread : g.reading x name = e.value name := by simp [reading, hx]
  simp only [setValue, element_eq, hx, bind, Except.bind, pure, Except.pure, Except.ok.injEq,
    Prod.mk.injEq] at hr
  rw [← hr.2, hread]
  split
  · simp [modify]
  · exact journal_record _ _

theorem logs_insertReference {owner target : ElementId} {role : RoleName} {index : Nat} {b : Bool}
    (hr : g.insertReference owner role index target = .ok (b, g')) :
    ∃ cs, g.Logs cs g' ∧ ∀ y, g'.contains y = g.contains y := by
  rcases eq_or_rewrites_of_insertReference hr with rfl | ⟨ho, ht, hn, hi, hw⟩
  · exact ⟨[], .nil, fun _ => rfl⟩
  · refine ⟨_, .single (.insert ht hn hi ho (hw.relists ho)) ?_, hw.contains⟩
    obtain ⟨e, hx⟩ := contains_iff.mp ho
    obtain ⟨t, ht⟩ := contains_iff.mp ht
    have hm : g.members owner role = e.targets role := by simp [members, hx]
    rw [hm] at hn hi
    simp only [insertReference, element_eq, hx, ht, bind, Except.bind, pure, Except.pure, hn,
      Nat.not_lt.mpr hi, if_false, Except.ok.injEq, Prod.mk.injEq] at hr
    rw [← hr.2]
    exact journal_record _ _

theorem reading_insertReference {owner target : ElementId} {role : RoleName}
    {index : Nat} {b : Bool} (hr : g.insertReference owner role index target = .ok (b, g'))
    (x : ElementId) (name : AttributeName) : g'.reading x name = g.reading x name := by
  rcases eq_or_rewrites_of_insertReference hr with rfl | ⟨ho, _, _, _, hw⟩
  · rfl
  · exact (hw.relists ho).reading x name

theorem logs_dropReference (h : g.Sound) (owner : ElementId) (role : RoleName)
    (target : ElementId) :
    ∃ cs, g.Logs cs (g.dropReference owner role target) ∧
      (target ∈ g.members owner role → ∃ index,
        cs = [⟨owner, .referenceRemoved role index target⟩]) := by
  have hl := h.relists_dropReference owner role target
  have hmembers : ((g.element? owner).map (·.targets role)).getD [] = g.members owner role := rfl
  cases hi : (g.members owner role).idxOf? target with
  | none =>
    refine ⟨[], ?_, fun hm => absurd hm (List.idxOf?_eq_none_iff.mp hi)⟩
    simp only [dropReference, hmembers, hi]
    exact .nil
  | some index =>
    have hm : target ∈ g.members owner role := List.isSome_idxOf?.mp (by rw [hi]; rfl)
    refine ⟨_, .single (.drop hm hl hi) ?_, fun _ => ⟨index, rfl⟩⟩
    simp only [dropReference, hmembers, hi]
    exact journal_record _ _

/-- Dropping a target from a list of places is recorded if one of them lists it. -/
theorem logs_foldl_dropReference (target : ElementId) (places : List (ElementId × RoleName))
    {g : Graph} (h : g.Sound) :
    ∃ cs, g.Logs cs (places.foldl (fun g r => g.dropReference r.1 r.2 target) g) ∧
      ∀ p ∈ places, target ∈ g.members p.1 p.2 →
        ∃ owner role index, ⟨owner, .referenceRemoved role index target⟩ ∈ cs := by
  induction places generalizing g with
  | nil => exact ⟨[], .nil, fun _ hp => by cases hp⟩
  | cons p places ih =>
    obtain ⟨cs, hcs, hrecorded⟩ := logs_dropReference h p.1 p.2 target
    obtain ⟨cs', hcs', hrest⟩ := ih (hcs.follows h).sound
    refine ⟨cs ++ cs', hcs.trans hcs', fun p' hp' hm => ?_⟩
    rcases dropReference_cases g p.1 target p.2 with ⟨hnot, hsame⟩ | ⟨hin, _⟩
    · -- nothing was dropped at the first place
      rcases List.mem_cons.mp hp' with rfl | hp'
      · exact absurd hm hnot
      · obtain ⟨owner, role, index, hc⟩ := hrest p' hp' (hsame.symm ▸ hm)
        exact ⟨owner, role, index, List.mem_append_right _ hc⟩
    · obtain ⟨index, rfl⟩ := hrecorded hin
      exact ⟨p.1, p.2, index, by simp⟩

/-- The deletion of an element that some role lists is recorded as a removal of it. -/
def Announces (g : Graph) (cs : List Change) (x : ElementId) : Prop :=
  ∀ y role, x ∈ g.members y role → ∃ owner role index,
    ⟨owner, .referenceRemoved role index x⟩ ∈ cs

theorem logs_remove (h : g.Sound) {x : ElementId} {e : Element} (hr : g.remove x = .ok (e, g')) :
    ∃ cs, g.Logs cs g' ∧ g.Announces cs x ∧ ∀ y, y ≠ x →
      g'.contains y = g.contains y := by
  obtain ⟨cs, hcs, hrecorded⟩ := logs_foldl_dropReference x (g.referrers x) h
  obtain ⟨hf, hc, hm⟩ := h.isolate x
  obtain ⟨hroot, hlive, hw, hj⟩ := remove_ok hr
  have hdelete : (g.isolate x).Logs [] g' :=
    .single (.delete hroot ((hc x).trans hlive) hm hw) (by simpa using hj)
  refine ⟨cs ++ [], hcs.trans hdelete, fun y role hy => ?_, fun y hy => ?_⟩
  · rw [List.append_nil]
    exact hrecorded (y, role) (Sound.mem_referrers hy) hy
  · rw [← hc y, Bool.eq_iff_iff, hw.contains]
    exact and_iff_right hy

/-- What is done by an edit that is not refused, and what it answers. -/
inductive Performs (g g' : Graph) : Edit → Edit.Outcome → Prop where
  | add (kind : TypeName) (write : g' = (g.add kind).2) :
      Performs g g' (.add kind) (.created ⟨g.next⟩)
  | set {x : ElementId} {name : AttributeName} {v before : Value}
    (write : g.setValue x name v = .ok (before, g')) :
    Performs g g' (.set x name v) (.replaced before)
  | push {owner target : ElementId} {role : RoleName} {b : Bool}
    (write : g.insertReference owner role (g.members owner role).length target = .ok (b, g')) :
    Performs g g' (.push owner role target) (.changed b)
  | insert {owner target : ElementId} {role : RoleName} {index : Nat} {b : Bool}
    (write : g.insertReference owner role index target = .ok (b, g')) :
    Performs g g' (.insert owner role index target) (.changed b)
  | unlink {owner target : ElementId} {role : RoleName} {b : Bool}
    (write : g' = g.dropReference owner role target) :
    Performs g g' (.unlink owner role target) (.changed b)
  | remove {x : ElementId} {e : Element} (write : g.remove x = .ok (e, g')) :
      Performs g g' (.remove x) (.removed e)

theorem performs_of_ok {e : Edit} {o : Edit.Outcome} (hr : g.perform e = .ok (o, g')) :
    g.Performs g' e o := by
  cases e with
  | add kind =>
    cases hr
    exact .add kind rfl
  | set x name v =>
    simp only [Graph.perform, bind, Except.bind, pure, Except.pure] at hr
    split at hr
    · cases hr
    · rename_i p hp
      cases hr
      exact .set hp
  | push owner role target =>
    simp only [Graph.perform, pushReference, references_eq, bind, Except.bind, pure,
      Except.pure] at hr
    split at hr
    · cases hr
    · rename_i p hp
      cases hr
      split at hp
      · cases hp
      · rename_i hm
        split at hm <;> cases hm
        exact .push hp
  | insert owner role index target =>
    simp only [Graph.perform, bind, Except.bind, pure, Except.pure] at hr
    split at hr
    · cases hr
    · rename_i p hp
      cases hr
      exact .insert hp
  | unlink owner role target =>
    simp only [Graph.perform, removeReference_eq, bind, Except.bind, pure, Except.pure] at hr
    split at hr
    · cases hr
    · rename_i p hp
      cases hr
      split at hp
      · cases hp
        exact .unlink rfl
      · cases hp
  | remove x =>
    simp only [Graph.perform, bind, Except.bind, pure, Except.pure] at hr
    split at hr
    · cases hr
    · rename_i p hp
      cases hr
      exact .remove hp

theorem logs_perform (h : g.Sound) {e : Edit} {o : Edit.Outcome} (hr : g.perform e = .ok (o, g')) :
    ∃ cs, g.Logs cs g' ∧ ∀ x, g.contains x = true → g'.contains x = false →
      e = .remove x ∧ g.Announces cs x := by
  have plain {e : Edit} (hl : ∃ cs, g.Logs cs g' ∧ ∀ y, g'.contains y = g.contains y) :
      ∃ cs, g.Logs cs g' ∧ ∀ x, g.contains x = true → g'.contains x = false →
        e = .remove x ∧ g.Announces cs x :=
    hl.imp fun _ hl => ⟨hl.1, fun x hx hd =>
      Bool.noConfusion (hd.symm.trans ((hl.2 x).trans hx))⟩
  cases performs_of_ok hr with
  | add kind write =>
    refine ⟨[], .single (.add kind write) (by simp [write, Graph.add]), fun x hx hd => ?_⟩
    rw [write, h.contains_add, hx, Bool.true_or] at hd
    cases hd
  | set write => exact plain (logs_setValue write)
  | push write => exact plain (logs_insertReference write)
  | insert write => exact plain (logs_insertReference write)
  | @unlink owner target role _ write =>
    obtain ⟨cs, hcs, _⟩ := logs_dropReference h owner role target
    exact plain
      ⟨cs, write ▸ hcs, fun y =>
        write ▸ (h.relists_dropReference owner role target).contains y⟩
  | @remove id _ write =>
    obtain ⟨cs, hcs, hrecorded, hc⟩ := logs_remove h write
    refine ⟨cs, hcs, fun x hx hd => ?_⟩
    obtain rfl : x = id := by
      by_contra hne
      exact Bool.noConfusion (hd.symm.trans ((hc x hne).trans hx))
    exact ⟨rfl, hrecorded⟩

/-- Every edit is a run of writes. An element that an edit deletes is one that it removes, which is
recorded if some role listed the element. -/
theorem logs_edit (h : g.Sound) (e : Edit) :
    ∃ cs, g.Logs cs (g.edit e) ∧
      ∀ x, g.contains x = true → (g.edit e).contains x = false → e = .remove x ∧
        g.Announces cs x := by
  unfold edit
  split
  · rename_i hp
    exact logs_perform h hp
  · exact ⟨[], .nil, fun x hx hd => Bool.noConfusion (hd.symm.trans hx)⟩

/-- Only its removal deletes an element. -/
theorem Sound.eq_remove (h : g.Sound) {e : Edit} {x : ElementId} (hx : g.contains x = true)
    (hd : (g.edit e).contains x = false) : e = .remove x := by
  obtain ⟨_, _, hdeleted⟩ := logs_edit h e
  exact (hdeleted x hx hd).1

theorem Sound.edit (h : g.Sound) (e : Edit) : g.Follows (g.edit e) := by
  obtain ⟨_, hcs, _⟩ := logs_edit h e
  exact hcs.follows h

theorem reading_perform (h : g.Sound) {e : Edit} {o : Edit.Outcome} (hr : g.perform e = .ok (o, g'))
    {x : ElementId} {name : AttributeName} (hs : ∀ v, e ≠ .set x name v)
    (hx : g'.contains x = true) : g'.reading x name = g.reading x name := by
  cases performs_of_ok hr with
  | add kind write => exact write ▸ h.reading_add kind x name
  | @set y n v _ write =>
    obtain ⟨hlive, hw⟩ := rewrites_of_setValue write
    rw [hw.reading_setValue hlive, if_neg]
    rintro ⟨rfl, rfl⟩
    exact hs v rfl
  | push write => exact reading_insertReference write x name
  | insert write => exact reading_insertReference write x name
  | @unlink owner target role _ write =>
    exact write ▸ (h.relists_dropReference owner role target).reading x name
  | @remove y _ write =>
    obtain ⟨_, _, hw, _⟩ := remove_ok write
    have hread : g'.reading x name = (g.isolate y).reading x name := by
      rw [Graph.reading, hw.element?, if_neg ((hw.contains x).mp hx).1]
      rfl
    rw [hread]
    exact Sound.reading_foldl_dropReference y (g.referrers y) h x name

/-- An edit leaves the attributes alone that it does not set. -/
theorem Sound.reading_edit (h : g.Sound) {e : Edit} {x : ElementId} {name : AttributeName}
    (hs : ∀ v, e ≠ .set x name v) (hx : (g.edit e).contains x = true) :
    (g.edit e).reading x name = g.reading x name := by
  unfold Graph.edit at hx ⊢
  split
  · rename_i o g' hp
    rw [hp] at hx
    exact reading_perform h hp hs hx
  · rfl

theorem logs_editAll (h : g.Sound) (es : List Edit) : ∃ cs, g.Logs cs (g.editAll es) := by
  induction es generalizing g with
  | nil => exact ⟨[], .nil⟩
  | cons e es ih =>
    obtain ⟨cs, hcs, _⟩ := logs_edit h e
    obtain ⟨cs', hcs'⟩ := ih (hcs.follows h).sound
    exact ⟨cs ++ cs', hcs.trans hcs'⟩

theorem Sound.editAll (h : g.Sound) (es : List Edit) : g.Follows (g.editAll es) := by
  obtain ⟨_, hcs⟩ := logs_editAll h es
  exact hcs.follows h

end Graph

end GraphSync
