import GraphSync.Proofs.Walk.Act

namespace GraphSync

open Walk Relation

/-- A run of writes. -/
abbrev Acts (k : Scheme) (d : Direction) (V : CorrespondenceId → Prop) :
    Store → Store → Prop :=
  ReflTransGen (Act k d V)

namespace Acts

variable {k : Scheme} {d : Direction} {V V' : CorrespondenceId → Prop} {a b : Store}
  {c : Correspondence} {s : Side} {id : CorrespondenceId} {rule : Rule} {pair : Sided ElementId}

theorem mono (h : Acts k d V a b) (hv : ∀ id, V id → V' id) : Acts k d V' a b :=
  ReflTransGen.mono (fun _ _ (hact : Act k d V _ _) => hact.mono hv) a b h

theorem consistent (h : Acts k d V a b) (hk : k.Consistent a.graphs a.pairs) :
    k.Consistent b.graphs b.pairs := by
  induction h with
  | refl => exact hk
  | tail _ hact ih => exact hact.consistent ih

/-- What every write keeps, a run of writes keeps. -/
theorem keep {P : Store → Prop} (h : Acts k d V a b) (hk : k.Consistent a.graphs a.pairs)
    (step : ∀ a b, k.Consistent a.graphs a.pairs → Act k d V a b → P a → P b) (ha : P a) :
    P b := by
  induction h with
  | refl => exact ha
  | tail hrun hact ih => exact step _ _ (Acts.consistent hrun hk) hact ih

theorem kind? (h : Acts k d V a b) (hk : k.Consistent a.graphs a.pairs) {x : ElementId}
    {kind : TypeName} :
    (a.graphs.on s).kind? x = some kind → (b.graphs.on s).kind? x = some kind :=
  h.keep hk fun _ _ hk hact => hact.kind? hk.sound

theorem contains (h : Acts k d V a b) (hk : k.Consistent a.graphs a.pairs) {x : ElementId} :
    (a.graphs.on s).contains x = true → (b.graphs.on s).contains x = true :=
  h.keep hk fun _ _ hk hact => hact.contains hk.sound

theorem members (h : Acts k d V a b) (hk : k.Consistent a.graphs a.pairs) (hs : s ∈ d.authorities)
    {x y : ElementId} {role : RoleName} :
    y ∈ (a.graphs.on s).members x role → y ∈ (b.graphs.on s).members x role :=
  h.keep hk fun _ _ hk hact => hact.members hk.sound hs

theorem source {source : Side} {forced : Bool} (h : Acts k (.oneWay source forced) V a b) :
    b.graphs.on source = a.graphs.on source := by
  induction h with
  | refl => rfl
  | tail _ hact ih => exact hact.source.trans ih

theorem alive (h : Acts k d V a b) (hk : k.Consistent a.graphs a.pairs) : a.Alive → b.Alive :=
  h.keep hk fun _ _ hk hact => hact.alive hk.sound

theorem names (h : Acts k d V a b) (hk : k.Consistent a.graphs a.pairs) :
    a.Names id rule pair → b.Names id rule pair :=
  h.keep hk fun _ _ hk hact => hact.names hk

theorem holds (h : Acts k d V a b) (hk : k.Consistent a.graphs a.pairs) :
    a.Holds id → b.Holds id :=
  h.keep hk fun _ _ hk hact => hact.holds hk

theorem anchoredAs_of (h : Acts k d V a b) (hb : b.AnchoredAs id) : a.AnchoredAs id := by
  induction h with
  | refl => exact hb
  | tail _ hact ih => exact ih (hact.anchoredAs_of hb)

theorem follows (h : Acts k d V a b) (hk : k.Consistent a.graphs a.pairs) (s : Side) :
    (a.graphs.on s).Follows (b.graphs.on s) :=
  h.keep (P := fun b => (a.graphs.on s).Follows (b.graphs.on s)) hk
    (fun _ _ hk hact hf => hf.trans (hact.follows hk.sound s)) (hk.sound s).refl

theorem next_le (h : Acts k d V a b) (hk : k.Consistent a.graphs a.pairs) :
    a.pairs.next ≤ b.pairs.next :=
  h.keep (P := fun b => a.pairs.next ≤ b.pairs.next) hk
    (fun _ _ _ hact hle => Nat.le_trans hle hact.next_le) (Nat.le_refl _)

/-- An entry whose handle was given out before the run was there. -/
theorem entry_of_old (h : Acts k d V a b) (hk : k.Consistent a.graphs a.pairs)
    (hc : c ∈ b.pairs.entries) (hi : c.id.index < a.pairs.next) :
    ∃ c' ∈ a.pairs.entries, c.core = c'.core := by
  induction h generalizing c with
  | refl => exact ⟨c, hc, rfl⟩
  | tail hrun hact ih =>
    rcases hact.origin hc with ⟨c', hc', hcore, _⟩ | ⟨_, hnew, _⟩
    · obtain ⟨c'', hc'', hcore'⟩ := ih hc' (Correspondence.id_eq_of_core hcore ▸ hi)
      exact ⟨c'', hc'', hcore.trans hcore'⟩
    · have hle := Acts.next_le hrun hk
      omega

/-- Nothing is remembered of a pair that the run has recorded, and did not write for. -/
theorem shadow?_of_new (h : Acts k d V a b) (hk : k.Consistent a.graphs a.pairs)
    (hc : c ∈ b.pairs.entries) (hi : a.pairs.next ≤ c.id.index) (hv : ¬ V c.id) (index : Nat) :
    c.shadow? index = none := by
  induction h generalizing c with
  | refl => exact absurd (hk.listed.bounded c hc) (Nat.not_lt_of_le hi)
  | tail _ hact ih =>
    rcases hact.origin hc with ⟨c', hc', hcore, hsame⟩ | ⟨_, _, hnone, _⟩
    · have hid := Correspondence.id_eq_of_core hcore
      obtain rfl := hsame (hid ▸ hv)
      exact ih hc' hi hv
    · exact hnone index

/-- Whatever becomes of the roots, another pair with live elements is not dropped. -/
theorem kept_inner (h : Acts k d V a b) (hk : k.Consistent a.graphs a.pairs)
    (hc : c ∈ a.pairs.entries) (hi : c.isAnchor = false)
    (hl : ∀ s, (a.graphs.on s).contains (c.element s) = true) :
    ∃ c' ∈ b.pairs.entries, c'.core = c.core := by
  refine h.keep (P := fun b => ∃ c' ∈ b.pairs.entries, c'.core = c.core ∧
    ∀ s, (b.graphs.on s).contains (c'.element s) = true) hk ?_ ⟨c, hc, rfl, hl⟩ |>.imp
    fun _ h => ⟨h.1, h.2.1⟩
  rintro a b hk hact ⟨c', hc', hcore, hl'⟩
  obtain ⟨c'', hc'', hcore'⟩ :=
    hact.kept hk hc' ((Correspondence.isAnchor_eq_of_core hcore).trans hi) hl'
  refine ⟨c'', hc'', hcore'.trans hcore, fun s => ?_⟩
  rw [Correspondence.element_eq_of_core hcore']
  exact hact.contains hk.sound (hl' s)

/-- If the roots are still paired at the end, no pair with live elements was dropped. -/
theorem kept (h : Acts k d V a b) (hk : k.Consistent a.graphs a.pairs) (hb : b.Anchored)
    (hc : c ∈ a.pairs.entries) (hl : ∀ s, (a.graphs.on s).contains (c.element s) = true) :
    ∃ c' ∈ b.pairs.entries, c'.core = c.core := by
  induction h with
  | refl => exact ⟨c, hc, rfl⟩
  | @tail a' b hrun hact ih =>
    have hrun' : Acts k d V a a' := hrun
    have hk' := hrun'.consistent hk
    obtain ⟨c', hc', hcore⟩ := ih (hact.anchored_of hb)
    cases hi : c'.isAnchor with
    | false =>
      obtain ⟨c'', hc'', hcore'⟩ := hact.kept hk' hc' hi fun s => by
        rw [Correspondence.element_eq_of_core hcore]
        exact hrun'.contains hk (hl s)
      exact ⟨c'', hc'', hcore'.trans hcore⟩
    | true =>
      obtain ⟨c'', hc'', hanchor⟩ := hb
      rcases hact.origin hc'' with ⟨c₀, hc₀, hcore', _⟩ | ⟨hn, _⟩
      · have hanchor₀ := (Correspondence.isAnchor_eq_of_core hcore').symm.trans hanchor
        rw [hk'.anchor_unique hc₀ hc' hanchor₀ hi] at hcore'
        exact ⟨c'', hc'', hcore'.trans hcore⟩
      · rw [hanchor] at hn
        cases hn

end Acts

/-- An error that the application of rules may end with: it never asks for a pair that contradicts a
recorded one, nor for a rule that is not registered. -/
structure Error.Expected (e : Error) : Prop where
  no_conflict : ∀ c, e ≠ .pairConflict c
  no_unknown : ∀ name, e ≠ .rule (.unknown name)

/-- `P` holds of the error if a graph gave it. -/
def Error.OfGraph (P : GraphError → Prop) (e : Error) : Prop := ∀ g, e = .graph g → P g

theorem Error.ofGraph_graph {P : GraphError → Prop} {g : GraphError} (h : P g) :
    Error.OfGraph P (.graph g) := by
  rintro _ ⟨rfl⟩
  exact h

theorem Error.ofGraph_rule {P : GraphError → Prop} (e : RuleError) : Error.OfGraph P (.rule e) :=
  nofun

theorem Error.ofGraph_tooDeep {P : GraphError → Prop} : Error.OfGraph P .tooDeep := nofun

namespace Scheme

variable {α β : Type} {k : Scheme} {d : Direction} {V V' : CorrespondenceId → Prop}
  {w w' w'' : State}

/-- A walk has come from `w` to `w'` by writes on behalf of the pairs that it visited, or that `V`
holds of. It visits a pair once; what it visits stays recorded, that of the roots apart. -/
structure Went (k : Scheme) (d : Direction) (V : CorrespondenceId → Prop)
    (w w' : State) : Prop where
  consistent : k.Consistent w'.graphs w'.pairs
  visited : w.visited ⊆ w'.visited
  once : w.visited.Nodup → w'.visited.Nodup
  paired : ∀ id ∈ w'.visited, id ∈ w.visited ∨ w'.store.Holds id ∨ w.store.AnchoredAs id
  deleted : w'.deleted = w.deleted
  acts : Acts k d (fun id => V id ∨ (id ∈ w'.visited ∧ id ∉ w.visited)) w.store w'.store

namespace Went

theorem refl (h : k.Consistent w.graphs w.pairs) : k.Went d V w w :=
  ⟨h, fun _ hi => hi, id, fun _ hi => .inl hi, rfl, .refl⟩

theorem trans (h : k.Went d V w w') (h' : k.Went d V w' w'') : k.Went d V w w'' := by
  refine ⟨h'.consistent, fun _ hi => h'.visited (h.visited hi), fun hn => h'.once (h.once hn),
    fun id hi => ?_, h'.deleted.trans h.deleted, ?_⟩
  · rcases h'.paired id hi with hi | hheld | hanchored
    · exact (h.paired id hi).imp_right (.imp_left (h'.acts.holds h.consistent))
    · exact .inr (.inl hheld)
    · exact .inr (.inr (h.acts.anchoredAs_of hanchored))
  refine (h.acts.mono fun id hv => ?_).trans (h'.acts.mono fun id hv => ?_)
  · exact hv.imp_right fun ⟨hin, hout⟩ => ⟨h'.visited hin, hout⟩
  · exact hv.imp_right fun ⟨hin, hout⟩ => ⟨hin, fun hw => hout (h.visited hw)⟩

theorem mono (h : k.Went d V w w') (hv : ∀ id, V id → V' id) : k.Went d V' w w' :=
  ⟨h.consistent, h.visited, h.once, h.paired, h.deleted, h.acts.mono fun id hi =>
    hi.imp_left (hv id)⟩

theorem same (h : k.Consistent w.graphs w.pairs) (hs : w'.store = w.store)
    (hv : w'.visited = w.visited) (hd : w'.deleted = w.deleted) : k.Went d V w w' := by
  refine ⟨?_, fun _ hi => hv ▸ hi, fun hn => hv ▸ hn, fun _ hi => .inl (hv ▸ hi),
    hd, hs ▸ .refl⟩
  have hg : w'.graphs = w.graphs := congrArg Store.graphs hs
  have hp : w'.pairs = w.pairs := congrArg Store.pairs hs
  rwa [hg, hp]

theorem act (h : k.Consistent w.graphs w.pairs) (ha : Act k d V w.store w'.store)
    (hv : w'.visited = w.visited) (hd : w'.deleted = w.deleted) : k.Went d V w w' :=
  ⟨ha.consistent h, fun _ hi => hv ▸ hi, fun hn => hv ▸ hn, fun _ hi => .inl (hv ▸ hi), hd,
    .single (ha.mono fun _ => .inl)⟩

end Went

/-- However the walk ends, it has come by writes, and an error is one that is to be expected and
that `P` holds of. -/
def Traces (k : Scheme) (d : Direction) (V : CorrespondenceId → Prop) (P : Error → Prop)
    (x : Walk α) (w : State) : Prop :=
  wp x (fun _ w' => k.Went d V w w') (fun e w' => k.Went d V w w' ∧ e.Expected ∧ P e) w

namespace Traces

variable {P P' : Error → Prop}

theorem pure (h : k.Consistent w.graphs w.pairs) (a : α) : k.Traces d V P (Pure.pure a) w := .refl h

theorem throw (h : k.Consistent w.graphs w.pairs) {e : Error} (he : e.Expected) (hp : P e) :
    k.Traces d V P (throw e : Walk α) w :=
  ⟨.refl h, he, hp⟩

theorem bind {x : Walk β} {f : β → Walk α} (hx : k.Traces d V P x w)
    (hf : ∀ b w', k.Went d V w w' → k.Traces d V P (f b) w') : k.Traces d V P (x >>= f) w := by
  rw [Traces, wp_bind]
  apply wp_imp hx
  intro b w' h
  exact wp_mono (hf b w' h) (fun _ _ h' => h.trans h') fun _ _ h' => ⟨h.trans h'.1, h'.2⟩

theorem forM {f : α → Walk Unit} {l : List α} (h : k.Consistent w.graphs w.pairs)
    (hf : ∀ a ∈ l, ∀ w', k.Went d V w w' → k.Traces d V P (f a) w') :
    k.Traces d V P (l.forM f) w := by
  refine wp_forM_keep (I := k.Went d V w) ?_ (.refl h)
  intro a ha w' h
  exact wp_mono (hf a ha w' h) (fun _ _ h' => h.trans h') fun _ _ h' => ⟨h.trans h'.1, h'.2⟩

theorem mapM {f : α → Walk β} {l : List α} (h : k.Consistent w.graphs w.pairs)
    (hf : ∀ a ∈ l, ∀ w', k.Went d V w w' → k.Traces d V P (f a) w') :
    k.Traces d V P (l.mapM f) w := by
  refine wp_mapM_keep (I := k.Went d V w) ?_ (.refl h)
  intro a ha w' h
  exact wp_mono (hf a ha w' h) (fun _ _ h' => h.trans h') fun _ _ h' => ⟨h.trans h'.1, h'.2⟩

theorem mono {x : Walk α} (h : k.Traces d V P x w) (hv : ∀ id, V id → V' id)
    (hp : ∀ e, P e → P' e) : k.Traces d V' P' x w :=
  wp_mono h (fun _ _ h' => h'.mono hv) fun e _ h' => ⟨h'.1.mono hv, h'.2.1, hp e h'.2.2⟩

/-- What else is known of the result. -/
theorem and {x : Walk α} (h : k.Traces d V P x w) {Q : α → State → Prop}
    (hq : wp x Q (fun _ _ => True) w) :
    wp x (fun a w' => k.Went d V w w' ∧ Q a w') (fun _ _ => True) w :=
  wp_mono (wp_and h hq) (fun _ _ h => h) fun _ _ _ => trivial

theorem pairs (h : k.Consistent w.graphs w.pairs) : k.Traces d V P Walk.pairs w := .refl h

end Traces

end Scheme

end GraphSync
