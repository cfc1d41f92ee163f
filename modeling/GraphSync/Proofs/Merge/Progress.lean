import GraphSync.Proofs.Walk.Apart

namespace GraphSync

open Walk Relation

namespace Merge

variable {k : Scheme} {V : CorrespondenceId → Prop} {w w' : State}
  {path done done' : List CorrespondenceId} {c c' : Correspondence} {child : Child} {s : Side}
  {m : ElementId}

/-- A member has its counterpart in the role on the other side, and the rule of their pair was
applied. -/
def Met (w : State) (done : List CorrespondenceId) (c : Correspondence) (child : Child) (s : Side)
    (m : ElementId) : Prop :=
  ∃ c' ∈ w.pairs.entries, c'.isAnchor = false ∧ c'.element s = m ∧
    c'.element s.other ∈ w.role c child s.other ∧ c'.id ∈ done

def RoleDone (w : State) (done : List CorrespondenceId) (c : Correspondence)
    (child : Child) : Prop :=
  ∀ s, ∀ m ∈ w.role c child s, Met w done c child s m

/-- A binding of a pair is in conflict, and that is reported. -/
structure Reported (w : State) (c : Correspondence) (b : Binding) (index : Nat) : Prop where
  verdict : b.verdict .twoWay (c.shadow? index) (w.values c.elements b) = .conflict
  mem : w.conflict c.rule c.id c.elements b ∈ w.report.conflicts

/-- A binding of a pair is left as it is, and values in step are remembered. -/
structure Kept (w : State) (c : Correspondence) (b : Binding) (index : Nat) : Prop where
  verdict : (∀ s, ((w.values c.elements b).on s).isOrdered = true) →
    b.verdict .twoWay (c.shadow? index) (w.values c.elements b) =
      .keep (b.inStep (w.values c.elements b))
  remembered : b.inStep (w.values c.elements b) = true →
    c.shadow? index = some (w.values c.elements b)

def BindingDone (w : State) (c : Correspondence) (bi : Binding × Nat) : Prop :=
  Reported w c bi.1 bi.2 ∨ Kept w c bi.1 bi.2

def RolesDone (k : Scheme) (w : State) (done : List CorrespondenceId) (c : Correspondence) : Prop :=
  ∀ r, k.rules.rule? c.rule = some r → ∀ child ∈ r.children, RoleDone w done c child

/-- Every listed pair is done, with those after it. -/
inductive Finished (k : Scheme) (w : State) : List CorrespondenceId → Prop where
  | nil : Finished k w []
  | cons {id : CorrespondenceId} {done : List CorrespondenceId}
    (head : ∀ c ∈ w.pairs.entries, c.id = id → RolesDone k w done c)
    (tail : Finished k w done) :
    Finished k w (id :: done)

/-- The rule of one pair leads to another pair. -/
def Leads (k : Scheme) (w : State) (i j : CorrespondenceId) : Prop :=
  ∃ c ∈ w.pairs.entries, c.id = i ∧ ∃ r, k.rules.rule? c.rule = some r ∧
    ∃ child ∈ r.children, ∃ s,
    ∃ c' ∈ w.pairs.entries, c'.id = j ∧ c'.isAnchor = false ∧
      c'.element s ∈ w.role c child s

def Reached (k : Scheme) (w : State) (i : CorrespondenceId) : Prop :=
  ∃ a ∈ w.pairs.entries, a.isAnchor = true ∧ ReflTransGen (Leads k w) a.id i

/-- The elements of a pair are members of the roots on both sides. -/
def Below (k : Scheme) (w : State) (c : Correspondence) : Prop :=
  c.isAnchor = false ∧ ∃ r, k.rules.rule? k.rootRule = some r ∧ ∃ child ∈ r.children,
    ∀ s, c.element s ∈ (w.graphs.on s).members (w.graphs.on s).root (child.roles.on s)

/-- The innermost pair is that of the roots, or the way to it goes through a member of the roots. -/
def Grounded (k : Scheme) (w : State) (path : List CorrespondenceId) : Prop :=
  ∃ c ∈ w.pairs.entries, (c.isAnchor = true ∧ path.head? = some c.id) ∨
    (Below k w c ∧ c.id ∈ path)

/-- Both sides are followed. -/
theorem mem_authorities (s : Side) : s ∈ Direction.twoWay.authorities := by
  cases s <;> simp [Direction.authorities, Side.all]

/-- No pair is dropped, and no member leaves its role. -/
structure Retains (w w' : State) : Prop where
  kept : ∀ c ∈ w.pairs.entries, ∃ c' ∈ w'.pairs.entries, c'.core = c.core
  members : ∀ s x role, ∀ m ∈ (w.graphs.on s).members x role,
    m ∈ (w'.graphs.on s).members x role

theorem Retains.role (h : Retains w w') (hcore : c'.core = c.core) (hm : m ∈ w.role c child s) :
    m ∈ w'.role c' child s := by
  rw [State.role, Correspondence.element_eq_of_core hcore]
  exact h.members s _ _ m hm

/-- What a pass that follows both sides does as long as the roots stay paired. -/
structure Grows (k : Scheme) (V : CorrespondenceId → Prop) (w w' : State) : Prop where
  consistent : k.Consistent w.graphs w.pairs
  alive : w.store.Alive
  anchored : w'.store.Anchored
  acts : Acts k .twoWay V w.store w'.store

namespace Grows

theorem kept (h : Grows k V w w') (hc : c ∈ w.pairs.entries) :
    ∃ c' ∈ w'.pairs.entries, c'.core = c.core :=
  h.acts.kept h.consistent h.anchored hc (h.alive c hc)

theorem members (h : Grows k V w w') {x : ElementId} {role : RoleName}
    (hm : m ∈ (w.graphs.on s).members x role) : m ∈ (w'.graphs.on s).members x role :=
  h.acts.members h.consistent (mem_authorities s) hm

theorem retains (h : Grows k V w w') : Retains w w' :=
  ⟨fun _ hc => h.kept hc, fun _ _ _ _ hm => h.members hm⟩

theorem keeps (h : Grows k V w w') (ht : ∀ s, k.rules.UniqueTypes s) (hc : c ∈ w.pairs.entries)
    (hv : ¬ V c.id) : w.store.Keeps w'.store c :=
  h.acts.keeps_others_of_types h.consistent h.alive ht h.anchored hc hv

end Grows

theorem Met.grows (h : Met w done c child s m) (hg : Grows k V w w') (hd : done ⊆ done') :
    Met w' done' c child s m := by
  obtain ⟨a, ha, hi, he, hp, hid⟩ := h
  obtain ⟨a', ha', hcore⟩ := hg.kept ha
  refine ⟨a', ha', (Correspondence.isAnchor_eq_of_core hcore).trans hi, ?_, ?_, ?_⟩
  · rw [Correspondence.element_eq_of_core hcore, he]
  · rw [Correspondence.element_eq_of_core hcore]
    exact hg.retains.role rfl hp
  · rw [Correspondence.id_eq_of_core hcore]
    exact hd hid

theorem RoleDone.grows (h : RoleDone w done c child) (hg : Grows k V w w')
    (hr : ∀ s, w'.role c child s = w.role c child s) (hd : done ⊆ done') :
    RoleDone w' done' c child := by
  intro s m hm
  rw [hr] at hm
  exact (h s m hm).grows hg hd

theorem Finished.grows (h : Finished k w done) (ht : ∀ s, k.rules.UniqueTypes s)
    (hg : Grows k V w w') (hl : w'.pairs.Listed)
    (hrec : ∀ id ∈ done, ∃ c ∈ w.pairs.entries, c.id = id) (hv : ∀ id ∈ done, ¬ V id) :
    Finished k w' done := by
  induction h with
  | nil => exact .nil
  | @cons id done head _ ih =>
    refine .cons ?_ (ih (fun i hi => hrec i (by simp [hi])) fun i hi => hv i (by simp [hi]))
    intro c' hc' hid r hr child hchild
    obtain ⟨c, hc, hid'⟩ := hrec id (by simp)
    have hkeeps := hg.keeps ht hc (hid' ▸ hv id (by simp))
    obtain rfl := hl.eq_of_id hc' hkeeps.entry (hid.trans hid'.symm)
    exact (head c' hc hid r hr child hchild).grows hg (hkeeps.role child) fun _ hi => hi

theorem Leads.retains {i j : CorrespondenceId} (h : Leads k w i j) (hw : Retains w w') :
    Leads k w' i j := by
  obtain ⟨c, hc, hi, r, hr, child, hchild, s, a, ha, hj, hn, hm⟩ := h
  obtain ⟨c', hc', hcore⟩ := hw.kept c hc
  obtain ⟨a', ha', hcore'⟩ := hw.kept a ha
  refine ⟨c', hc', (Correspondence.id_eq_of_core hcore).trans hi, r, ?_, child,
    hchild, s, a', ha', (Correspondence.id_eq_of_core hcore').trans hj,
    (Correspondence.isAnchor_eq_of_core hcore').trans hn, ?_⟩
  · rw [Correspondence.rule_eq_of_core hcore, hr]
  · rw [Correspondence.element_eq_of_core hcore']
    exact hw.role hcore hm

theorem Reached.retains {i : CorrespondenceId} (h : Reached k w i) (hw : Retains w w') :
    Reached k w' i := by
  obtain ⟨a, ha, hanchor, hpath⟩ := h
  obtain ⟨a', ha', hcore⟩ := hw.kept a ha
  refine ⟨a', ha', (Correspondence.isAnchor_eq_of_core hcore).trans hanchor, ?_⟩
  rw [Correspondence.id_eq_of_core hcore]
  exact ReflTransGen.mono (fun _ _ hl => hl.retains hw) _ _ hpath

theorem Below.grows (h : Below k w c) (hg : Grows k V w w') (hcore : c'.core = c.core) :
    Below k w' c' := by
  obtain ⟨hi, r, hr, child, hchild, hm⟩ := h
  refine ⟨(Correspondence.isAnchor_eq_of_core hcore).trans hi, r, hr, child, hchild,
    fun s => ?_⟩
  rw [Correspondence.element_eq_of_core hcore]
  exact hg.members (hm s)

theorem Grounded.grows (h : Grounded k w path) (hg : Grows k V w w') : Grounded k w' path := by
  obtain ⟨c, hc, h⟩ := h
  obtain ⟨c', hc', hcore⟩ := hg.kept hc
  refine ⟨c', hc', ?_⟩
  rw [Correspondence.id_eq_of_core hcore, Correspondence.isAnchor_eq_of_core hcore]
  exact h.imp_right fun ⟨hb, hi⟩ => ⟨hb.grows hg hcore, hi⟩

end Merge

end GraphSync
