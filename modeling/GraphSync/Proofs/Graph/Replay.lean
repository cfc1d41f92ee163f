import GraphSync.Proofs.Graph.History
import Mathlib.Data.List.InsertIdx

namespace GraphSync

/-- Values that are equal to a reader: numerically, where a NaN matches itself. -/
def Value.Alike (v w : Value) : Prop := v = w ∨ v.same w = true

instance (v w : Value) : Decidable (v.Alike w) :=
  inferInstanceAs (Decidable (v = w ∨ v.same w = true))

namespace Value.Alike

variable {u v w : Value}

theorem refl (v : Value) : v.Alike v := .inl rfl

theorem symm (h : v.Alike w) : w.Alike v := h.imp Eq.symm fun hs => (Value.same_comm w v).trans hs

theorem trans (h : u.Alike v) (h' : v.Alike w) : u.Alike w := by
  rcases h with rfl | h
  · exact h'
  · rcases h' with rfl | h'
    · exact .inr h
    · exact .inr (Value.same_trans h h')

end Value.Alike

/-- What elements hold; nothing is said about which of them are live. -/
structure Content where
  reading : ElementId → AttributeName → Value
  members : ElementId → RoleName → List ElementId

def Graph.content (g : Graph) : Content := ⟨g.reading, g.members⟩

/-- The record of the opposite write. -/
def Change.inverse (c : Change) : Change :=
  match c.effect with
  | .attributeSet name before after => ⟨c.element, .attributeSet name after before⟩
  | .referenceAdded role index target => ⟨c.element, .referenceRemoved role index target⟩
  | .referenceRemoved role index target => ⟨c.element, .referenceAdded role index target⟩

namespace Content

def assign (s : Content) (x : ElementId) (name : AttributeName) (v : Value) : Content :=
  { s with reading := fun y n => if y = x ∧ n = name then v else s.reading y n }

def relist (s : Content) (x : ElementId) (role : RoleName) (ts : List ElementId) : Content :=
  { s with members := fun y r => if y = x ∧ r = role then ts else s.members y r }

@[simp] theorem members_assign (s : Content) (x : ElementId) (name : AttributeName) (v : Value) :
    (s.assign x name v).members = s.members := rfl

@[simp] theorem reading_relist (s : Content) (x : ElementId) (role : RoleName)
    (ts : List ElementId) : (s.relist x role ts).reading = s.reading :=
  rfl

/-- Writes what a record says was written. -/
def redo (s : Content) (c : Change) : Content :=
  match c.effect with
  | .attributeSet name _ after => s.assign c.element name after
  | .referenceAdded role index target =>
    s.relist c.element role ((s.members c.element role).insertIdx index target)
  | .referenceRemoved role index _ =>
    s.relist c.element role ((s.members c.element role).eraseIdx index)

/-- What was there before is what the record says: the old value, a role that has the place and not
the target, or the target in its place. -/
def Fits (s : Content) (c : Change) : Prop :=
  match c.effect with
  | .attributeSet name before _ => (s.reading c.element name).Alike before
  | .referenceAdded role index target =>
    index ≤ (s.members c.element role).length ∧ target ∉ s.members c.element role
  | .referenceRemoved role index target => (s.members c.element role)[index]? = some target

instance (s : Content) : (c : Change) → Decidable (s.Fits c)
  | ⟨x, .attributeSet name before _⟩ =>
    inferInstanceAs (Decidable ((s.reading x name).Alike before))
  | ⟨x, .referenceAdded role index target⟩ =>
    inferInstanceAs
      (Decidable (index ≤ (s.members x role).length ∧ target ∉ s.members x role))
  | ⟨x, .referenceRemoved role index target⟩ =>
    inferInstanceAs (Decidable ((s.members x role)[index]? = some target))

/-- Replays records in their order; each of them has to fit. -/
def replay? (s : Content) : List Change → Option Content
  | [] => some s
  | c :: cs => if s.Fits c then (s.redo c).replay? cs else none

/-- Takes records back, the last one first. -/
def undoAll (s : Content) (cs : List Change) : Content := cs.foldr (fun c s => s.redo c.inverse) s

theorem replay?_append {s t : Content} {cs : List Change} (h : s.replay? cs = some t)
    (cs' : List Change) : s.replay? (cs ++ cs') = t.replay? cs' := by
  induction cs generalizing s with
  | nil =>
    cases h
    rfl
  | cons c cs ih =>
    rw [replay?] at h
    split at h
    · rename_i hfits
      rw [List.cons_append, replay?, if_pos hfits, ih h]
    · cases h

theorem replay?_single {s : Content} {c : Change} (h : s.Fits c) :
    s.replay? [c] = some (s.redo c) := by
  rw [replay?, if_pos h, replay?]

/-- Both hold the same at `x`: its roles with the order of their members, and its attributes as a
reader sees them. -/
structure Agrees (s t : Content) (x : ElementId) : Prop where
  reading : ∀ name, (s.reading x name).Alike (t.reading x name)
  members : ∀ role, s.members x role = t.members x role

namespace Agrees

variable {s t u : Content} {x : ElementId}

theorem refl (s : Content) (x : ElementId) : s.Agrees s x := ⟨fun _ => .refl _, fun _ => rfl⟩

theorem symm (h : s.Agrees t x) : t.Agrees s x :=
  ⟨fun name => (h.reading name).symm, fun role => (h.members role).symm⟩

theorem trans (h : s.Agrees t x) (h' : t.Agrees u x) : s.Agrees u x :=
  ⟨fun name => (h.reading name).trans (h'.reading name), fun role =>
    (h.members role).trans (h'.members role)⟩

/-- A record writes the same wherever the element it is about holds the same. -/
theorem redo (h : s.Agrees t x) (c : Change) : (s.redo c).Agrees (t.redo c) x := by
  unfold Content.redo
  split
  · refine ⟨fun n => ?_, h.members⟩
    simp only [assign]
    split
    · exact .refl _
    · exact h.reading n
  all_goals
    refine ⟨h.reading, fun r => ?_⟩
    simp only [relist]
    split
    · rename_i he
      rw [← he.1, h.members]
    · exact h.members r

end Agrees

/-- A record that fits is taken back by its inverse. -/
theorem agrees_redo_inverse {s : Content} {c : Change} (h : s.Fits c) (x : ElementId) :
    ((s.redo c).redo c.inverse).Agrees s x := by
  obtain ⟨y, effect⟩ := c
  cases effect with
  | attributeSet name before after =>
    refine ⟨fun n => ?_, fun _ => rfl⟩
    simp only [Content.redo, Change.inverse, assign]
    split
    · rename_i he
      obtain ⟨rfl, rfl⟩ := he
      exact Value.Alike.symm h
    · exact .refl _
  | referenceAdded role index target =>
    refine ⟨fun _ => .refl _, fun r => ?_⟩
    simp only [Content.redo, Change.inverse, relist, and_self, if_true,
      List.eraseIdx_insertIdx_self]
    split
    · rename_i he
      rw [he.1, he.2]
    · rfl
  | referenceRemoved role index target =>
    have hback : ((s.members y role).eraseIdx index).insertIdx index target = s.members y role := by
      obtain ⟨hlt, hat⟩ := List.getElem?_eq_some_iff.mp h
      exact hat ▸ List.insertIdx_eraseIdx_getElem hlt
    refine ⟨fun _ => .refl _, fun r => ?_⟩
    simp only [Content.redo, Change.inverse, relist, and_self, if_true, hback]
    split
    · rename_i he
      rw [he.1, he.2]
    · rfl

/-- Taking back what was replayed leads to the start, from wherever the end is agreed on. -/
theorem agrees_undoAll {s s' t : Content} {cs : List Change} {x : ElementId}
    (h : s.replay? cs = some s') (ht : t.Agrees s' x) : (t.undoAll cs).Agrees s x := by
  induction cs generalizing s with
  | nil =>
    cases h
    exact ht
  | cons c cs ih =>
    rw [replay?] at h
    split at h
    · rename_i hfits
      exact ((ih h).redo c.inverse).trans (agrees_redo_inverse hfits x)
    · cases h

end Content

namespace Graph

variable {g g' : Graph}

/-- `s` agrees with the graph, except at elements that are gone. -/
def Mirrored (g : Graph) (s : Content) : Prop :=
  ∀ x, g.contains x = true ∨ g.next ≤ x.index → s.Agrees g.content x

theorem Relists.mirrored {s : Content} {owner : ElementId} {role : RoleName} {ts : List ElementId}
    (h : g.Relists g' owner role ts) (hs : g.Mirrored s) :
    g'.Mirrored (s.relist owner role ts) := by
  intro x hx
  rw [h.contains, h.next] at hx
  refine ⟨fun n => ?_, fun r => ?_⟩
  · simpa only [content, Content.reading_relist, h.reading] using (hs x hx).reading n
  · simp only [content, Content.relist, h.members]
    split
    · rfl
    · exact (hs x hx).members r

/-- What is agreed on takes the new value, or one that is equal to it, and keeps everything else. -/
theorem Rewrites.mirrored {s t : Content} {x : ElementId} {name : AttributeName} {v : Value}
    (h : g.Rewrites g' x (·.setValue name v)) (hx : g.contains x = true) (hs : g.Mirrored s)
    (hat : (t.reading x name).Alike v)
    (hoff : ∀ y n, ¬ (y = x ∧ n = name) → t.reading y n = s.reading y n)
    (hmembers : t.members = s.members) : g'.Mirrored t := by
  intro y hy
  rw [h.contains, h.next] at hy
  refine ⟨fun n => ?_, fun r => ?_⟩
  · simp only [content, h.reading_setValue hx]
    split
    · rename_i he
      rw [he.1, he.2]
      exact hat
    · rename_i he
      rw [hoff y n he]
      exact (hs y hy).reading n
  · simp only [content, h.members_setValue, hmembers]
    exact (hs y hy).members r

/-- A new element holds nothing. -/
theorem Sound.mirrored_add {s : Content} (hg : g.Sound) (hs : g.Mirrored s) (kind : TypeName) :
    (g.add kind).2.Mirrored s := by
  intro x hx
  have hx' : g.contains x = true ∨ g.next ≤ x.index := by
    rcases hx with hx | hx
    · rw [hg.contains_add, Bool.or_eq_true, decide_eq_true_eq] at hx
      exact hx.imp_right fun he => Nat.le_of_eq (congrArg ElementId.index he).symm
    · exact .inr (Nat.le_of_succ_le hx)
  refine ⟨fun n => ?_, fun r => ?_⟩
  · simpa only [content, hg.reading_add] using (hs x hx').reading n
  · simpa only [content, hg.members_add] using (hs x hx').members r

theorem Deletes.mirrored {s : Content} {x : ElementId} (h : g.Deletes g' x) (hg : g.Sound)
    (hx : g.contains x = true) (hs : g.Mirrored s) : g'.Mirrored s := by
  intro y hy
  have hne : y ≠ x := by
    rcases hy with hy | hy
    · exact ((h.contains y).mp hy).1
    · rintro rfl
      exact absurd (hg.live_lt y hx) (Nat.not_lt.mpr (h.next ▸ hy))
  rw [h.next] at hy
  have hagrees : s.Agrees g.content y := hs y (hy.imp_left fun hy => ((h.contains y).mp hy).2)
  refine ⟨fun n => ?_, fun r => ?_⟩
  · simpa only [content, Graph.reading, h.element?, if_neg hne] using hagrees.reading n
  · simpa only [content, h.members, if_neg hne] using hagrees.members r

/-- What a write records fits what the graph held, and makes of it what the graph holds then. -/
theorem Write.replays {s : Content} {cs : List Change} (h : g.Write g' cs) (hg : g.Sound)
    (hs : g.Mirrored s) : ∃ s', s.replay? cs = some s' ∧ g'.Mirrored s' := by
  cases h with
  | add kind write => exact ⟨s, rfl, write ▸ hg.mirrored_add hs kind⟩
  | @set x name v live write =>
    have hold : (s.reading x name).Alike (g.reading x name) := (hs x (.inl live)).reading name
    split
    · rename_i hsame
      -- the old value stays, which is equal to the new one
      exact ⟨s, rfl, write.mirrored live hs (hold.trans (.inr hsame)) (fun _ _ _ => rfl) rfl⟩
    · refine ⟨_, Content.replay?_single hold,
        write.mirrored live hs ?_ (fun y n he => if_neg he) rfl⟩
      simp only [Content.redo, Content.assign, and_self, if_true]
      exact .refl v
  | @insert owner target role index live new le owner_live write =>
    have hm : s.members owner role = g.members owner role :=
      (hs owner (.inl owner_live)).members role
    have hfits : s.Fits ⟨owner, .referenceAdded role index target⟩ := by
      simp only [Content.Fits, hm]
      exact ⟨le, new⟩
    refine ⟨_, Content.replay?_single hfits, ?_⟩
    simp only [Content.redo, hm]
    exact write.mirrored hs
  | @drop owner target role index member write placed =>
    have hlive : g.contains owner = true := contains_of_mem_members member
    have hm : s.members owner role = g.members owner role := (hs owner (.inl hlive)).members role
    have hfits : s.Fits ⟨owner, .referenceRemoved role index target⟩ := by
      obtain ⟨hlt, hat, _⟩ := List.idxOf?_eq_some_iff.mp placed
      simp only [Content.Fits, hm]
      exact List.getElem?_eq_some_iff.mpr ⟨hlt, hat⟩
    have herase :
        (g.members owner role).eraseIdx index = (g.members owner role).filter (· ≠ target) := by
      rw [← hg.erase_members, List.erase_eq_eraseIdx, placed]
    refine ⟨_, Content.replay?_single hfits, ?_⟩
    simp only [Content.redo, hm, herase]
    exact write.mirrored hs
  | delete inner live unlisted write => exact ⟨s, rfl, write.mirrored hg live hs⟩

theorem Logs.replays {s : Content} {cs : List Change} (h : g.Logs cs g') (hg : g.Sound)
    (hs : g.Mirrored s) : ∃ s', s.replay? cs = some s' ∧ g'.Mirrored s' := by
  induction h with
  | nil => exact ⟨s, rfl, hs⟩
  | snoc run write _ ih =>
    obtain ⟨s₁, h₁, hs₁⟩ := ih
    obtain ⟨s₂, h₂, hs₂⟩ := write.replays (run.follows hg).sound hs₁
    exact ⟨s₂, (Content.replay?_append h₁ _).trans h₂, hs₂⟩

/-- Whatever led to a graph that is observed and whose journal is empty: after any further edits,
refused ones included, the journal can be replayed on what the graph held, each record fits what it
is replayed on, and the result is what the graph holds at each element that is live. Taken back from
there, the journal gives what these elements held before. -/
theorem replay_journal (name : String) (kind : TypeName) (ops : List Operation) (es : List Edit)
    (hempty : ((new name kind).operateAll ops).2.journal = [])
    (hobserved : ((new name kind).operateAll ops).2.observed = true) :
    let g := ((new name kind).operateAll ops).2
    let g' := g.editAll es
    (∃ s, g.content.replay? g'.journal = some s ∧ ∀ x, g'.contains x = true →
      s.Agrees g'.content x) ∧
      ∀ x, g'.contains x = true → (g'.content.undoAll g'.journal).Agrees g.content x := by
  intro g g'
  have hg : g.Sound := ((sound_new name kind).creates_operateAll ops).follows.sound
  obtain ⟨cs, hlogs⟩ := logs_editAll hg es
  have hjournal : g'.journal = cs := by
    rw [hlogs.journal, hempty, hobserved]
    rfl
  obtain ⟨s, hreplay, hs⟩ := hlogs.replays hg fun x _ => .refl g.content x
  have hend (x : ElementId) (hx : g'.contains x = true) : s.Agrees g'.content x := hs x (.inl hx)
  rw [hjournal]
  exact ⟨⟨s, hreplay, hend⟩, fun x hx => Content.agrees_undoAll hreplay (hend x hx).symm⟩

/-- One zero gives way to the other in silence. The node that is removed leads to itself, and two
more roles list it. -/
theorem replay_journal_removal :
    let ops : List Operation :=
      [.edit (.add "Node"), .edit (.add "Node"), .edit (.push ⟨1⟩ "next" ⟨1⟩),
        .edit (.push ⟨1⟩ "next" ⟨2⟩),
        .edit (.push ⟨2⟩ "next" ⟨1⟩), .edit (.set ⟨2⟩ "load" (.float .zero)),
        .observe true, .takeChanges]
    let es : List Edit :=
      [.set ⟨2⟩ "load" (.float Binary64.zero.neg), .set ⟨2⟩ "load" (.float .nan),
        .push ⟨0⟩ "nodes" ⟨1⟩,
        .insert ⟨0⟩ "nodes" 3 ⟨2⟩, .insert ⟨0⟩ "nodes" 0 ⟨2⟩, .remove ⟨1⟩,
        .add "Node", .push ⟨2⟩ "next" ⟨3⟩]
    let g := ((new "network" "Net").operateAll ops).2
    let g' := g.editAll es
    (g.journal = [] ∧ g.observed = true ∧
      g'.journal =
        [⟨⟨2⟩, .attributeSet "load" (.float Binary64.zero.neg) (.float .nan)⟩,
          ⟨⟨0⟩, .referenceAdded "nodes" 0 ⟨1⟩⟩,
          ⟨⟨0⟩, .referenceAdded "nodes" 0 ⟨2⟩⟩,
          ⟨⟨0⟩, .referenceRemoved "nodes" 1 ⟨1⟩⟩,
          ⟨⟨1⟩, .referenceRemoved "next" 0 ⟨1⟩⟩,
          ⟨⟨2⟩, .referenceRemoved "next" 0 ⟨1⟩⟩,
          ⟨⟨2⟩, .referenceAdded "next" 0 ⟨3⟩⟩]) ∧
      (∃ s, g.content.replay? g'.journal = some s ∧ ∀ x, g'.contains x = true →
        s.Agrees g'.content x) ∧
      ∀ x, g'.contains x = true → (g'.content.undoAll g'.journal).Agrees g.content x := by
  intro ops es g g'
  obtain ⟨hempty, hobserved⟩ : g.journal = [] ∧ g.observed = true := by decide +kernel
  exact ⟨⟨hempty, hobserved, by decide +kernel⟩,
    replay_journal "network" "Net" ops es hempty hobserved⟩

end Graph

end GraphSync
