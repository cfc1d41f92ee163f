import GraphSync.Proofs.Correspondence.Consistent
import GraphSync.Proofs.Walk.Operations
import Mathlib.Logic.Relation

namespace GraphSync

open Walk

/-- What a walk works on. -/
structure Store where
  graphs : Sided Graph
  pairs : Correspondences

def Walk.State.store (w : State) : Store := ⟨w.graphs, w.pairs⟩

namespace Store

/-- The values that a binding relates on two elements. -/
def values (a : Store) (pair : Sided ElementId) (b : Binding) : Sided Value :=
  ⟨a.graphs.left.reading pair.left b.attributes.left,
    a.graphs.right.reading pair.right b.attributes.right⟩

@[simp] theorem values_on (a : Store) (pair : Sided ElementId) (b : Binding) (s : Side) :
    (a.values pair b).on s = (a.graphs.on s).reading (pair.on s) (b.attributes.on s) := by
  cases s <;> rfl

/-- A pair with live elements, other than that of the roots, is recorded with that handle. -/
def Holds (a : Store) (id : CorrespondenceId) : Prop :=
  ∃ c ∈ a.pairs.entries, c.id = id ∧ c.isAnchor = false ∧
    ∀ s, (a.graphs.on s).contains (c.element s) = true

/-- The pair of the roots is recorded with that handle. -/
def AnchoredAs (a : Store) (id : CorrespondenceId) : Prop :=
  ∃ c ∈ a.pairs.entries, c.id = id ∧ c.isAnchor = true

/-- `id` stands for the pair under the rule, which is for elements of its types: it was handed out
for it, and the pair is still recorded with live elements, unless it is that of the roots. -/
structure Names (a : Store) (id : CorrespondenceId) (rule : Rule)
    (pair : Sided ElementId) : Prop where
  old : id.index < a.pairs.next
  entry : ∀ c ∈ a.pairs.entries, c.id = id → c.rule = rule.name ∧ c.elements = pair
  recorded : a.Holds id ∨
    (pair = a.graphs.map Graph.root ∧ ∀ c ∈ a.pairs.entries, c.isAnchor = true → c.id = id)
  kinds : ∀ s, (a.graphs.on s).kind? (pair.on s) = some (rule.types.on s)

/-- The handle of a recorded pair with live elements stands for it. -/
theorem Names.of_entry {a : Store} {k : Scheme} (hk : k.Consistent a.graphs a.pairs)
    {c : Correspondence} (hc : c ∈ a.pairs.entries)
    (hl : ∀ s, (a.graphs.on s).contains (c.element s) = true) {rule : Rule}
    (hr : k.rules.rule? c.rule = some rule) : a.Names c.id rule c.elements := by
  refine ⟨hk.listed.bounded c hc, ?_, ?_, ?_⟩
  · intro c' hc' hi
    rw [hk.listed.eq_of_id hc' hc hi]
    exact ⟨(RuleSet.mem_of_rule? hr).2.symm, rfl⟩
  · cases ha : c.isAnchor with
    | false => exact .inl ⟨c, hc, rfl, ha, hl⟩
    | true =>
      refine .inr ⟨(hk.anchor c hc ha).2, ?_⟩
      intro c' hc' ha'
      rw [hk.anchor_unique hc' hc ha' ha]
  · intro s
    obtain ⟨r, hr', htypes⟩ := hk.typed c hc
    obtain rfl : rule = r := Option.some.inj (hr.symm.trans hr')
    obtain ⟨kind, hkind⟩ := Graph.contains_iff_kind.mp (hl s)
    exact htypes s kind hkind ▸ hkind

theorem Names.live {a : Store} {id : CorrespondenceId} {rule : Rule} {pair : Sided ElementId}
    (h : a.Names id rule pair) (hs : ∀ s, (a.graphs.on s).Sound) (s : Side) :
    (a.graphs.on s).contains (pair.on s) = true := by
  rcases h.recorded with ⟨c, hc, hi, _, hl⟩ | ⟨hroot, _⟩
  · rw [← (h.entry c hc hi).2]
    exact hl s
  · rw [hroot, Sided.on_map]
    exact (hs s).root_live

/-- An error about a missing element of the pair is out of the question. -/
theorem Names.absurd_dead {k : Scheme} {a : Store} {id : CorrespondenceId} {rule : Rule}
    {pair : Sided ElementId} {s : Side} {p : Prop} (h : a.Names id rule pair)
    (hk : k.Consistent a.graphs a.pairs) (hd : (a.graphs.on s).contains (pair.on s) = false) : p :=
  Bool.noConfusion (hd.symm.trans (h.live hk.sound s))

/-- Every recorded pair has both its elements. -/
def Alive (a : Store) : Prop :=
  ∀ c ∈ a.pairs.entries, ∀ s, (a.graphs.on s).contains (c.element s) = true

/-- The roots are paired. -/
def Anchored (a : Store) : Prop := ∃ c ∈ a.pairs.entries, c.isAnchor = true

/-- An element of that side takes part in one pair at most. -/
def Apart (a : Store) (s : Side) : Prop :=
  ∀ c ∈ a.pairs.entries, ∀ c' ∈ a.pairs.entries, c.element s = c'.element s → c = c'

/-- The root of that side is a member of some role, or has a partner besides the other root. -/
def Exposed (a : Store) (s : Side) : Prop :=
  (∃ x role, (a.graphs.on s).root ∈ (a.graphs.on s).members x role) ∨
    ∃ c ∈ a.pairs.entries, c.isAnchor = false ∧ c.element s = (a.graphs.on s).root

end Store

/-- The rule is known, and one of its children has that role on side `s`. -/
def Scheme.Uses (k : Scheme) (rule : Rule) (s : Side) (role : RoleName) : Prop :=
  k.rules.rule? rule.name = some rule ∧ ∃ child ∈ rule.children, child.roles.on s = role

/-- One write of a walk in direction `d`, on behalf of a pair whose handle `V` holds of. A
counterpart is put into a role of the pair; a new one is made first, and recorded afterwards. Only
what has a counterpart is taken out of a role. -/
inductive Act (k : Scheme) (d : Direction) (V : CorrespondenceId → Prop) (a : Store) :
    Store → Prop where
  | remember {id : CorrespondenceId} {rule : Rule} {pair : Sided ElementId} {b : Binding}
    {index : Nat} (on : V id) (names : a.Names id rule pair)
    (known : k.rules.rule? rule.name = some rule) (numbered : (b, index) ∈ rule.numbered)
    (inStep : b.inStep (a.values pair b) = true) :
    Act k d V a ⟨a.graphs, a.pairs.recordShadow id index (a.values pair b)⟩
  | copy {id : CorrespondenceId} {rule : Rule} {pair : Sided ElementId} {b : Binding}
    {index : Nat} {s : Side} {g' : Graph} (on : V id) (names : a.Names id rule pair)
    (known : k.rules.rule? rule.name = some rule) (numbered : (b, index) ∈ rule.numbered)
    (side : s ∈ d.authorities) (write : (a.graphs.on s.other).Rewrites g' (pair.on s.other)
      (·.setValue (b.attributes.on s.other) ((b.copied (a.values pair b) s).on s.other))) :
    Act k d V a
      ⟨a.graphs.put s.other g', a.pairs.recordShadow id index (b.copied (a.values pair b) s)⟩
  | link {id : CorrespondenceId} {rule : Rule} {pair : Sided ElementId} {s : Side} {role : RoleName}
    {y : ElementId} {index : Nat} {g' : Graph} (on : V id) (names : a.Names id rule pair)
    (side : s ∈ d.authorities) (partner : y ≠ (a.graphs.on s.other).root ∨
      ∃ c ∈ a.pairs.entries, c.isAnchor = false ∧ c.element s.other = y)
    (live : (a.graphs.on s.other).contains y = true)
    (new : y ∉ (a.graphs.on s.other).members (pair.on s.other) role)
    (le : index ≤ ((a.graphs.on s.other).members (pair.on s.other) role).length)
    (write : (a.graphs.on s.other).Relists g' (pair.on s.other) role
      (((a.graphs.on s.other).members (pair.on s.other) role).insertIdx index y))
    (used : k.Uses rule s.other role) :
    Act k d V a ⟨a.graphs.put s.other g', a.pairs⟩
  | unlink {id : CorrespondenceId} {rule : Rule} {pair : Sided ElementId} {s : Side}
    {role : RoleName} {y : ElementId} {g' : Graph} (forced : d.isForced = true) (on : V id)
    (names : a.Names id rule pair) (side : s ∈ d.authorities)
    (write : (a.graphs.on s.other).Relists g' (pair.on s.other) role
      (((a.graphs.on s.other).members (pair.on s.other) role).filter (· ≠ y)))
    (used : k.Uses rule s.other role) (paired : ∃ c ∈ a.pairs.entries, c.element s.other = y) :
    Act k d V a ⟨a.graphs.put s.other g', a.pairs⟩
  | make {s : Side} {child : Child} {owner m : ElementId} {r : Rule} (side : s ∈ d.authorities)
    (invoked : ∃ rule ∈ k.rules.rules, child ∈ rule.children)
    (member : m ∈ (a.graphs.on s).members owner (child.roles.on s)) (rule : r ∈ k.rules.rules)
    (type : r.types.on s.other = child.types.on s.other)
    (stale : ∀ c ∈ a.pairs.entries, c.rule = r.name → c.element s = m →
      c.isAnchor = true ∨ (a.graphs.on s.other).contains (c.element s.other) = false) :
    Act k d V a ⟨a.graphs.put s.other ((a.graphs.on s.other).add (r.types.on s.other)).2,
      a.pairs.without r.name s m⟩
  | record {s : Side} {role : RoleName} {owner m y : ElementId} {r : Rule}
    (side : s ∈ d.authorities) (member : m ∈ (a.graphs.on s).members owner role)
    (rule : k.rules.rule? r.name = some r) (kind : (a.graphs.on s).kind? m = some (r.types.on s))
    (kind' : (a.graphs.on s.other).kind? y = some (r.types.on s.other))
    (unpaired : ∀ c ∈ a.pairs.entries, c.rule = r.name → c.element s ≠ m)
    (fresh : ∀ c ∈ a.pairs.entries, c.element s.other ≠ y)
    (inner : y ≠ (a.graphs.on s.other).root) :
    Act k d V a ⟨a.graphs, {
      entries := a.pairs.entries ++ [a.pairs.newEntry r.name (s.arrange m y) d]
      next := a.pairs.next + 1 }⟩

namespace Act

open Relation

variable {k : Scheme} {d : Direction} {V V' : CorrespondenceId → Prop} {a b : Store}
  {c : Correspondence} {s : Side} {id : CorrespondenceId} {rule : Rule} {pair : Sided ElementId}

theorem mono (h : Act k d V a b) (hv : ∀ id, V id → V' id) : Act k d V' a b := by
  cases h with
  | remember on names known numbered inStep => exact .remember (hv _ on) names known numbered inStep
  | copy on names known numbered side write => exact .copy (hv _ on) names known numbered side write
  | link on names side partner live new le write used =>
    exact .link (hv _ on) names side partner live new le write used
  | unlink forced on names side write used paired =>
    exact .unlink forced (hv _ on) names side write used paired
  | make side invoked member rule type stale => exact .make side invoked member rule type stale
  | record side member rule kind kind' unpaired fresh inner =>
    exact .record side member rule kind kind' unpaired fresh inner

theorem put_follows {graphs : Sided Graph} {g : Graph} (hs : ∀ s, (graphs.on s).Sound) (s : Side)
    (hf : (graphs.on s).Follows g) (t : Side) : (graphs.on t).Follows ((graphs.put s g).on t) := by
  by_cases ht : t = s
  · subst t
    simpa using hf
  · rw [Sided.on_put_of_ne _ _ ht]
    exact (hs t).refl

theorem follows (h : Act k d V a b) (hs : ∀ s, (a.graphs.on s).Sound) (s : Side) :
    (a.graphs.on s).Follows (b.graphs.on s) := by
  cases h with
  | remember => exact (hs s).refl
  | copy on names known numbered side write => exact put_follows hs _ ((hs _).setValue write) s
  | link on names side partner live new le write =>
    exact put_follows hs _ ((hs _).insertIdx write live new le) s
  | unlink forced on names side write =>
    refine put_follows hs _ ((hs _).relists write (((hs _).members_nodup _ _).filter _) ?_) s
    intro y hy
    exact (hs _).members_live _ _ y (List.mem_filter.mp hy).1
  | make => exact put_follows hs _ ((hs _).add _) s
  | record => exact (hs s).refl

/-- Elements keep their types; none is deleted. -/
theorem kind? (h : Act k d V a b) (hs : ∀ s, (a.graphs.on s).Sound) {s : Side} {x : ElementId}
    {kind : TypeName} (hk : (a.graphs.on s).kind? x = some kind) :
    (b.graphs.on s).kind? x = some kind := by
  have put {t : Side} {g : Graph}
      (hg : (a.graphs.on t).kind? x = some kind → g.kind? x = some kind) :
      ((a.graphs.put t g).on s).kind? x = some kind := by
    by_cases ht : s = t
    · subst t
      rw [Sided.on_put_self]
      exact hg hk
    · rwa [Sided.on_put_of_ne _ _ ht]
  cases h with
  | remember => exact hk
  | copy on names known numbered side write =>
    exact put fun hk => write.kind? (fun _ => rfl) x ▸ hk
  | link on names side partner live new le write => exact put fun hk => write.kind? x ▸ hk
  | unlink forced on names side write => exact put fun hk => write.kind? x ▸ hk
  | @make t =>
    refine put fun hk => ?_
    have hne : x ≠ ⟨(a.graphs.on t.other).next⟩ := by
      intro e
      have hlive := Graph.contains_iff_kind.mpr ⟨kind, hk⟩
      rw [e, (hs _).fresh] at hlive
      cases hlive
    rwa [Graph.kind?, Graph.element?_add_of_ne _ hne]
  | record => exact hk

theorem contains (h : Act k d V a b) (hs : ∀ s, (a.graphs.on s).Sound) {s : Side} {x : ElementId}
    (hx : (a.graphs.on s).contains x = true) : (b.graphs.on s).contains x = true := by
  obtain ⟨kind, hk⟩ := Graph.contains_iff_kind.mp hx
  exact Graph.contains_iff_kind.mpr ⟨kind, h.kind? hs hk⟩

/-- A forced direction follows one side only. -/
theorem eq_of_forced {d : Direction} {s t : Side} (hd : d.isForced = true)
    (hs : s ∈ d.authorities) (ht : t ∈ d.authorities) : s = t := by
  cases d with
  | oneWay source forced =>
    rw [List.mem_singleton.mp hs, List.mem_singleton.mp ht]
  | twoWay => cases hd

/-- Nothing leaves a role of a side that is followed. -/
theorem members (h : Act k d V a b) (hsound : ∀ s, (a.graphs.on s).Sound)
    (hs : s ∈ d.authorities) {x y : ElementId} {role : RoleName}
    (hy : y ∈ (a.graphs.on s).members x role) : y ∈ (b.graphs.on s).members x role := by
  have put {t : Side} {g : Graph}
      (hg : y ∈ (a.graphs.on t).members x role → y ∈ g.members x role) :
      y ∈ ((a.graphs.put t g).on s).members x role := by
    by_cases ht : s = t
    · subst t
      rw [Sided.on_put_self]
      exact hg hy
    · rwa [Sided.on_put_of_ne _ _ ht]
  cases h with
  | remember => exact hy
  | copy on names known numbered side write =>
    exact put fun hy => write.members_setValue x role ▸ hy
  | link on names side partner live new le write =>
    refine put fun hy => ?_
    rw [write.members]
    split
    · rename_i he
      rw [List.mem_insertIdx le, ← he.1, ← he.2]
      exact .inr hy
    · exact hy
  | unlink forced on names side write =>
    obtain rfl := eq_of_forced forced hs side
    rwa [Sided.on_put_of_ne _ _ s.ne_other]
  | make => exact put fun hy => (hsound _).members_add _ x role ▸ hy
  | record => exact hy

/-- The side that alone is followed is left alone. -/
theorem source {source : Side} {forced : Bool} (h : Act k (.oneWay source forced) V a b) :
    b.graphs.on source = a.graphs.on source := by
  have put {t : Side} {g : Graph} (ht : t ∈ (Direction.oneWay source forced).authorities) :
      (a.graphs.put t.other g).on source = a.graphs.on source := by
    rw [List.mem_singleton.mp ht]
    exact Sided.on_put_of_ne _ _ source.ne_other
  cases h with
  | remember => rfl
  | copy on names known numbered side write => exact put side
  | link on names side => exact put side
  | unlink forced on names side => exact put side
  | make side => exact put side
  | record => rfl

theorem consistent (h : Act k d V a b) (hk : k.Consistent a.graphs a.pairs) :
    k.Consistent b.graphs b.pairs := by
  have hf := h.follows hk.sound
  have agreed {graphs : Sided Graph} {id : CorrespondenceId} {rule : Rule} {pair : Sided ElementId}
      {bd : Binding} {index : Nat} {values : Sided Value} (hk : k.Consistent graphs a.pairs)
      (names : a.Names id rule pair) (known : k.rules.rule? rule.name = some rule)
      (numbered : (bd, index) ∈ rule.numbered) (hv : bd.Agreed values) :
      k.Consistent graphs (a.pairs.recordShadow id index values) := by
    apply hk.recordShadow
    intro c hc hi r hr bi hbi hx
    rw [(names.entry c hc hi).1, known] at hr
    cases hr
    obtain rfl : bi = (bd, index) := Rule.eq_of_index hbi numbered hx
    exact hv
  cases h with
  | @remember id rule pair bd index on names known numbered inStep =>
    exact agreed hk names known numbered (.inl inStep)
  | copy on names known numbered side write =>
    exact agreed (hk.edited hf) names known numbered (Binding.agreed_copied _ _ _)
  | link => exact hk.edited hf
  | unlink => exact hk.edited hf
  | make =>
    obtain ⟨hs, hn⟩ := Correspondences.without_sublist a.pairs _ _ _
    exact (hk.edited hf).sublist hs hn
  | @record s role owner m y r side member rule kind kind' unpaired fresh inner =>
    refine hk.append rfl ?_ ?_ (fun h => by cases h) ?_ ⟨r, rule, ?_⟩ fun _ => rfl
    · intro t c hc hr
      rcases s.eq_or_eq_other t with rfl | rfl
      · simpa using unpaired c hc hr
      · simpa using fresh c hc
    · intro t
      rcases s.eq_or_eq_other t with rfl | rfl
      · simpa using (hk.sound _).live_lt _ (Graph.contains_iff_kind.mpr ⟨_, kind⟩)
      · simpa using (hk.sound _).live_lt _ (Graph.contains_iff_kind.mpr ⟨_, kind'⟩)
    · intro _ he
      have hy : (s.arrange m y).on s.other = (a.graphs.map Graph.root).on s.other :=
        congrArg (·.on s.other) he
      rw [Sided.on_arrange_other, Sided.on_map] at hy
      exact inner hy
    · intro t κ ht
      rcases s.eq_or_eq_other t with rfl | rfl
      · rw [Correspondences.element_newEntry, Sided.on_arrange_self, kind] at ht
        exact (Option.some.inj ht).symm
      · rw [Correspondences.element_newEntry, Sided.on_arrange_other, kind'] at ht
        exact (Option.some.inj ht).symm

/-- Where an entry comes from: it was there, or it is new and not that of the roots, and nothing is
remembered of it. -/
theorem origin (h : Act k d V a b) (hc : c ∈ b.pairs.entries) :
    (∃ c' ∈ a.pairs.entries, c.core = c'.core ∧ (¬ V c'.id → c = c')) ∨
      (c.isAnchor = false ∧ a.pairs.next ≤ c.id.index ∧
        (∀ index, c.shadow? index = none) ∧
        ∃ s ∈ d.authorities,
          (∃ owner role, c.element s ∈ (a.graphs.on s).members owner role) ∧
          c.element s.other ≠ (a.graphs.on s.other).root ∧
          (∀ c' ∈ a.pairs.entries, c'.element s.other ≠ c.element s.other) ∧
          ∀ s, (a.graphs.on s).contains (c.element s) = true) := by
  have same (hc : c ∈ a.pairs.entries) :
      ∃ c' ∈ a.pairs.entries, c.core = c'.core ∧ (¬ V c'.id → c = c') :=
    ⟨c, hc, rfl, fun _ => rfl⟩
  have shadowed {id : CorrespondenceId} {index : Nat} {values : Sided Value} (on : V id)
      (hc : c ∈ (a.pairs.recordShadow id index values).entries) :
      ∃ c' ∈ a.pairs.entries, c.core = c'.core ∧ (¬ V c'.id → c = c') := by
    obtain ⟨c', hc', hcore, hne⟩ := (Correspondences.Touches.recordShadow _ _ _ _).old c hc
    exact ⟨c', hc', hcore, fun hv => hne fun e => hv (e ▸ on)⟩
  cases h with
  | remember on => exact .inl (shadowed on hc)
  | copy on => exact .inl (shadowed on hc)
  | link => exact .inl (same hc)
  | unlink => exact .inl (same hc)
  | make => exact .inl (same ((Correspondences.without_sublist _ _ _ _).1.subset hc))
  | @record t role owner m y r side member rule kind kind' unpaired fresh inner =>
    rcases List.mem_append.mp hc with hc | hc
    · exact .inl (same hc)
    · rw [List.mem_singleton.mp hc]
      refine .inr
        ⟨rfl, Nat.le_refl _, fun _ => rfl, t, side, ⟨owner, role, by simpa using member⟩,
        by simpa using inner, by simpa using fresh, ?_⟩
      intro u
      rcases t.eq_or_eq_other u with rfl | rfl
      · simpa using Graph.contains_iff_kind.mpr ⟨_, kind⟩
      · simpa using Graph.contains_iff_kind.mpr ⟨_, kind'⟩

theorem next_le (h : Act k d V a b) : a.pairs.next ≤ b.pairs.next := by
  cases h with
  | make => exact Nat.le_of_eq (Correspondences.without_sublist _ _ _ _).2.symm
  | record => exact Nat.le_succ _
  | _ => exact Nat.le_refl _

/-- A pair with live elements stays recorded, unless it is that of the roots. -/
theorem kept (h : Act k d V a b) (hk : k.Consistent a.graphs a.pairs) (hc : c ∈ a.pairs.entries)
    (hi : c.isAnchor = false) (hl : ∀ s, (a.graphs.on s).contains (c.element s) = true) :
    ∃ c' ∈ b.pairs.entries, c'.core = c.core := by
  cases h with
  | remember => exact (Correspondences.Touches.recordShadow _ _ _ _).kept c hc
  | copy => exact (Correspondences.Touches.recordShadow _ _ _ _).kept c hc
  | link => exact ⟨c, hc, rfl⟩
  | unlink => exact ⟨c, hc, rfl⟩
  | make side invoked member rule type stale =>
    refine ⟨c, hk.mem_without.mpr ⟨hc, ?_⟩, rfl⟩
    intro hkey
    rcases stale c hc hkey.1 hkey.2 with ha | hd
    · rw [hi] at ha
      cases ha
    · rw [hl] at hd
      cases hd
  | record => exact ⟨c, List.mem_append_left _ hc, rfl⟩

theorem alive (h : Act k d V a b) (hs : ∀ s, (a.graphs.on s).Sound) (ha : a.Alive) : b.Alive := by
  intro c hc s
  apply h.contains hs
  rcases h.origin hc with ⟨c', hc', he, _⟩ | ⟨_, _, _, _, _, _, _, _, hl⟩
  · rw [Correspondence.element_eq_of_core he]
    exact ha c' hc' s
  · exact hl s

theorem holds (h : Act k d V a b) (hk : k.Consistent a.graphs a.pairs) (ha : a.Holds id) :
    b.Holds id := by
  obtain ⟨c, hc, hi, hinner, hl⟩ := ha
  obtain ⟨c', hc', he⟩ := h.kept hk hc hinner hl
  refine ⟨c', hc', (Correspondence.id_eq_of_core he).trans hi,
    (Correspondence.isAnchor_eq_of_core he).trans hinner, ?_⟩
  intro s
  rw [Correspondence.element_eq_of_core he]
  exact h.contains hk.sound (hl s)

/-- The roots are not paired by a walk. -/
theorem anchoredAs_of (h : Act k d V a b) (hb : b.AnchoredAs id) : a.AnchoredAs id := by
  obtain ⟨c, hc, hi, hanchor⟩ := hb
  rcases h.origin hc with ⟨c', hc', he, _⟩ | ⟨hn, _⟩
  · exact ⟨c', hc', (Correspondence.id_eq_of_core he).symm.trans hi,
      (Correspondence.isAnchor_eq_of_core he).symm.trans hanchor⟩
  · rw [hanchor] at hn
    cases hn

theorem anchored_of (h : Act k d V a b) (hb : b.Anchored) : a.Anchored := by
  obtain ⟨c, hc, hanchor⟩ := hb
  obtain ⟨c', hc', _, hanchor'⟩ := h.anchoredAs_of ⟨c, hc, rfl, hanchor⟩
  exact ⟨c', hc', hanchor'⟩

theorem names (h : Act k d V a b) (hk : k.Consistent a.graphs a.pairs) (hn : a.Names id rule pair) :
    b.Names id rule pair := by
  refine ⟨Nat.lt_of_lt_of_le hn.old h.next_le, ?_, ?_, fun s => h.kind? hk.sound (hn.kinds s)⟩
  · intro c hc hi
    rcases h.origin hc with ⟨c', hc', he, _⟩ | ⟨_, hnew, _⟩
    · rw [Correspondence.rule_eq_of_core he, Correspondence.elements_eq_of_core he]
      exact hn.entry c' hc' ((Correspondence.id_eq_of_core he).symm.trans hi)
    · have hold := hn.old
      rw [hi] at hnew
      omega
  · rcases hn.recorded with hheld | ⟨hroot, hanchor⟩
    · exact .inl (h.holds hk hheld)
    · refine .inr ⟨hroot, ?_⟩
      intro c hc ha
      obtain ⟨c', hc', hi, ha'⟩ := h.anchoredAs_of ⟨c, hc, rfl, ha⟩
      exact hi.symm.trans (hanchor c' hc' ha')

end Act

end GraphSync
