import GraphSync.Proofs.Pass.Convergence
import GraphSync.Proofs.Pass.Idempotence
import GraphSync.Proofs.Session.Source
import GraphSync.Proofs.Session.Waiting
import GraphSync.Proofs.Walk.AlignWhole

namespace GraphSync

open Walk

variable {source : Side}

namespace Session

variable {s t : Session} {k : OneWay} {es : List Edit} {R : ElementId → RoleName → Prop}

theorem aligned_collect (hs : s.Consistent) (h : k.Aligned R s.store) :
    k.Aligned R s.collect.store :=
  h.congr hs.listed rfl (members_collect s)

theorem aligned_pass (hd : s.Directed k) (hroles : k.rules.UniqueRoles k.target) (hs : s.Consistent)
    (h : k.Aligned R s.store) : k.Aligned R s.pass.2.store := by
  rw [pass, hd.rules, hd.rootRule, hd.direction]
  exact exec_of_wp (I := fun w' => k.Aligned R w'.store)
    (OneWay.aligned_syncRoots hroles (consistent_walkState hd hs) (aligned_collect hs h))

theorem aligned_flush (h : s.Follows k) (hroles : k.rules.UniqueRoles k.target) (hs : s.Consistent)
    (ha : k.Aligned R s.store) : k.Aligned R s.flush.2.store := by
  have hcollect := aligned_collect hs ha
  by_cases hempty : s.collect.queue.items = []
  · rwa [flush_of_nil hempty]
  have hdrained : k.Straight R s.drained.2.walk :=
    h.drain_keep (I := k.Straight R) (fun c _ hw => hw.carry hroles c) s.collect.queue.items
      ⟨consistent_walkState h.toDirected hs, hcollect, fun p hp => by cases hp⟩
  obtain ⟨_, hnext, hsub, _⟩ := releaseDeleted_spec s.drained.2.walk
  rw [flush_of_ne_nil hempty]
  exact hdrained.releaseDeleted.congr (hdrained.consistent.listed.sublist hsub hnext) rfl
    (members_adopt s.collect _)

/-- In the roles that mirror one of side `source`, the counterparts stand in the order of the
mirrored role. -/
def Sorted (s : Session) (source : Side) : Prop :=
  ∀ c ∈ s.pairs.entries, ∀ r, s.rules.rule? c.rule = some r → ∀ child ∈ r.children,
    ∃ xs, xs.Sublist (s.store.role c child source) ∧
      s.pairs.Lists source xs (s.store.role c child source.other)

/-- Counterparts that stand in the order of a mirrored role of `s` stand in its order as it is in
`t`, too. -/
def KeepsOrder (s t : Session) (source : Side) : Prop :=
  ∀ c ∈ s.pairs.entries, ∀ r, s.rules.rule? c.rule = some r → ∀ child ∈ r.children,
    s.pairs.InOrder source (s.store.role c child source) (s.store.role c child source.other) →
      s.pairs.InOrder source (t.store.role c child source) (s.store.role c child source.other)

/-- From now on only side `source` is edited, and edits that are carried over together, by a flush
or at once with an edit, keep the order; so do those that wait in the end. The session is `t`, and
was `s` when edits were last carried over. -/
def EditsInOrder (source : Side) (s t : Session) : List Action → Prop
  | [] => s.KeepsOrder t source
  | a :: history =>
    match a with
    | .mutate side _ => side = source ∧ EditsInOrder source s (t.perform a) history
    | .edit side _ => side = source ∧
        if t.options.propagation.isImmediate then
          s.KeepsOrder (t.perform a) source ∧
            EditsInOrder source (t.perform a) (t.perform a) history
        else EditsInOrder source s (t.perform a) history
    | .flush => s.KeepsOrder t source ∧ EditsInOrder source (t.perform a) (t.perform a) history
    | _ => False

theorem KeepsOrder.congr {t' : Session} (h : s.KeepsOrder t source)
    (hm : (t'.graphs.on source).members = (t.graphs.on source).members) :
    s.KeepsOrder t' source := by
  intro c hc r hr child hchild hin
  have hrole : t'.store.role c child source = t.store.role c child source :=
    congrArg (fun members : ElementId → RoleName → List ElementId => members _ _) hm
  rw [hrole]
  exact h c hc r hr child hchild hin

/-- Where roles are sorted, the members of one that stay in their order have their counterparts in
order. -/
theorem Sorted.inOrder {c : Correspondence} {r : Rule} {child : Child} (h : s.Sorted source)
    (hapart : s.store.Apart source.other) (ht : (t.graphs.on source).Sound)
    (hc : c ∈ s.pairs.entries) (hr : s.rules.rule? c.rule = some r)
    (hchild : child ∈ r.children)
    (hstay : ((s.store.role c child source).filter (· ∈ t.store.role c child source)).Sublist
      (t.store.role c child source)) :
    s.pairs.InOrder source (t.store.role c child source) (s.store.role c child source.other) := by
  obtain ⟨xs, hsub, hlists⟩ := h c hc r hr child hchild
  exact hlists.inOrder hsub hstay (ht.members_nodup _ _) fun _ _ _ _ => hapart.partner_unique

/-- Where roles are sorted, it is enough that the members that stay keep their order among
themselves. -/
theorem Sorted.keepsOrder (h : s.Sorted source) (hapart : s.store.Apart source.other)
    (ht : (t.graphs.on source).Sound)
    (hstay : ∀ c ∈ s.pairs.entries, ∀ r, s.rules.rule? c.rule = some r →
      ∀ child ∈ r.children,
      ((s.store.role c child source).filter (· ∈ t.store.role c child source)).Sublist
        (t.store.role c child source)) :
    s.KeepsOrder t source :=
  fun c hc r hr child hchild _ => h.inOrder hapart ht hc hr hchild (hstay c hc r hr child hchild)

/-- Where roles are sorted, the counterparts are in order. -/
theorem Sorted.aligned (h : s.Sorted k.source) (hd : s.Directed k) (hs : s.Consistent)
    (hrooted : ∃ c ∈ s.pairs.entries, c.rule = k.rootRule ∧
      c.element k.source = (s.graphs.on k.source).root) :
    k.Aligned R s.store := by
  have hco := hd.coherent
  have hapart : s.store.Apart k.target := hco.target_inj
  refine ⟨hapart, fun c hc hi => hco.member c hc hi, hrooted, ?_, ?_⟩
  · -- what a sorted role lists are counterparts by other pairs than that of the roots
    intro c hc r hr child hchild c' hc' hi hin
    obtain ⟨xs, _, hlists⟩ := h c hc r (hd.rules ▸ hr) child hchild
    have hpaired : c'.element k.target ∈ s.pairs.partners k.source (c'.element k.source) :=
      Correspondences.mem_partners.mpr ⟨c', hc', rfl, rfl⟩
    obtain ⟨e, he, hey⟩ := hlists.exists_mem hin (Correspondences.partners_ne_nil hpaired)
    obtain ⟨hmem, hinner⟩ := List.mem_filter.mp he
    rw [hco.target_inj e hmem c' hc' hey, hi] at hinner
    cases hinner
  · intro c hc r hr child hchild _
    exact h.inOrder hapart (hs.sound _) hc (hd.rules ▸ hr) hchild List.filter_sublist

/-- The session differs from another one in source edits that were not carried over. -/
structure Ahead (k : OneWay) (s t : Session) : Prop where
  follows : t.Follows k
  consistent : t.Consistent
  pairs : t.pairs = s.pairs
  target : (t.graphs.on k.target).members = (s.graphs.on k.target).members

namespace Ahead

theorem refl (h : s.Follows k) (hs : s.Consistent) : Ahead k s s := ⟨h, hs, rfl, rfl⟩

theorem mutate (h : Ahead k s t) (es : List Edit) : Ahead k s (t.perform (.mutate k.source es)) :=
  ⟨h.follows.perform _, (h.consistent.perform _).1, h.pairs,
    (congrArg Graph.members (Sided.on_put_of_ne _ _ k.target_ne_source)).trans h.target⟩

theorem collect (h : Ahead k s t) : Ahead k s t.collect :=
  ⟨h.follows.collect, (h.consistent.perform .collect).1, h.pairs,
    (members_collect t _).trans h.target⟩

/-- Edits that keep the order leave the counterparts in order. -/
theorem aligned (h : Ahead k s t) (hrules : s.rules = k.rules)
    (ha : k.Aligned (fun _ _ => True) s.store) (hkeeps : s.KeepsOrder t k.source) :
    k.Aligned (fun _ _ => True) t.store := by
  have hpairs : t.store.pairs = s.store.pairs := h.pairs
  have hrole (c : Correspondence) (child : Child) :
      t.store.role c child k.target = s.store.role c child k.target :=
    congrArg (fun members : ElementId → RoleName → List ElementId => members _ _) h.target
  obtain ⟨hapart, hinner, hrooted, hbare, hordered⟩ := ha
  rw [Store.Apart, ← hpairs] at hapart
  rw [← hpairs] at hinner hrooted hbare
  refine ⟨hapart, hinner, hrooted, fun c hc r hr child hchild => ?_,
    fun c hc r hr child hchild hR => ?_⟩
  · rw [hrole]
    exact hbare c hc r hr child hchild
  · rw [hrole, hpairs]
    have hc : c ∈ s.pairs.entries := h.pairs ▸ hc
    exact hkeeps c hc r (hrules ▸ hr) child hchild (hordered c hc r hr child hchild hR)

end Ahead

/-- Source edits of which those that are carried over together keep the order leave the counterparts
in order. -/
theorem aligned_performAll (hroles : k.rules.UniqueRoles k.target) {history : List Action}
    (h : Ahead k s t) (hrules : s.rules = k.rules) (ha : k.Aligned (fun _ _ => True) s.store)
    (he : EditsInOrder k.source s t history) :
    k.Aligned (fun _ _ => True) (t.performAll history).store := by
  -- what edits leave in order is in order when they have been carried over
  have flush {s t : Session} (h : Ahead k s t) (hrules : s.rules = k.rules)
      (ha : k.Aligned (fun _ _ => True) s.store) (hkeeps : s.KeepsOrder t k.source) :
      Ahead k (t.perform .flush) (t.perform .flush) ∧
        k.Aligned (fun _ _ => True) (t.perform .flush).store :=
    ⟨.refl h.follows.flush (h.consistent.perform .flush).1,
      aligned_flush h.follows hroles h.consistent (h.aligned hrules ha hkeeps)⟩
  induction history generalizing s t with
  | nil => exact h.aligned hrules ha he
  | cons a history ih =>
    rw [performAll_cons]
    cases a with
    | mutate side es =>
      obtain ⟨rfl, he⟩ := he
      exact ih (h.mutate es) hrules ha he
    | edit side es =>
      obtain ⟨rfl, he⟩ := he
      by_cases hi : t.options.propagation.isImmediate = true
      · simp only [perform_edit, if_pos hi] at he ⊢
        obtain ⟨hkeeps, he⟩ := he
        have hm := h.collect.mutate es
        obtain ⟨hu, hua⟩ :=
          flush hm hrules ha (hkeeps.congr (members_source_flush hm.follows hm.consistent).symm)
        exact ih hu hu.follows.rules hua he
      · simp only [perform_edit, if_neg hi] at he ⊢
        exact ih (h.collect.mutate es).collect hrules ha he
    | flush =>
      obtain ⟨hkeeps, he⟩ := he
      obtain ⟨hu, hua⟩ := flush h hrules ha hkeeps
      exact ih hu hu.follows.rules hua he
    | _ => exact he.elim

/-- The roles of the pairs in `ids` list the counterparts of what they mirror, in its order. -/
def ListsAll (s : Session) (source : Side) (ids : List CorrespondenceId) : Prop :=
  ∀ c ∈ s.pairs.entries, c.id ∈ ids → ∃ r, s.rules.rule? c.rule = some r ∧
    ∀ child ∈ r.children,
    s.pairs.Lists source (s.store.role c child source) (s.store.role c child source.other)

/-- Where two sessions have applied a rule to the same element, the roles of both list counterparts
of the same members, one by one. -/
def ListsAlike (s t : Session) (source : Side) (ids ids' : List CorrespondenceId) : Prop :=
  ∀ c ∈ s.pairs.entries, c.id ∈ ids → ∀ c' ∈ t.pairs.entries, c'.id ∈ ids' →
    c'.rule = c.rule →
    c'.element source = c.element source → ∀ r, s.rules.rule? c.rule = some r →
      ∀ child ∈ r.children,
      List.Forall₂
        (fun y y' => ∃ m, y ∈ s.pairs.partners source m ∧ y' ∈ t.pairs.partners source m)
        ((s.store.role c child source.other).filter fun y => s.pairs.partners source.other y ≠ [])
        ((t.store.role c' child source.other).filter fun y =>
          t.pairs.partners source.other y ≠ [])

theorem ListsAll.alike {ids ids' : List CorrespondenceId} (h : s.ListsAll source ids)
    (h' : t.ListsAll source ids') (hrules : t.rules = s.rules)
    (hsource : (t.graphs.on source).members = (s.graphs.on source).members) :
    s.ListsAlike t source ids ids' := by
  intro c hc hv c' hc' hv' hrule he r hr child hchild
  obtain ⟨r₁, hr₁, hlists⟩ := h c hc hv
  obtain ⟨r₂, hr₂, hlists'⟩ := h' c' hc' hv'
  rw [hrules, hrule] at hr₂
  obtain rfl : r = r₁ := Option.some.inj (hr.symm.trans hr₁)
  obtain rfl : r = r₂ := Option.some.inj (hr.symm.trans hr₂)
  have hrole : t.store.role c' child source = s.store.role c child source := by
    rw [Store.role, he]
    exact congrArg (fun members : ElementId → RoleName → List ElementId => members _ _) hsource
  exact (hlists child hchild).alike (hrole ▸ hlists' child hchild)

/-- A forced pass that ends with the counterparts in order has made lists of them. -/
theorem listsAll_of_aligned (h : s.Directed k) (hforced : k.forced = true)
    (hroles : k.rules.UniqueRoles k.target) {report : Report} (hok : s.synchronize.1 = .ok report)
    (ha : k.Aligned (fun _ _ => True) s.pass.2.store) :
    s.synchronize.2.ListsAll k.source s.pass.2.visited ∧
      (s.synchronize.2.graphs.on k.source).members = (s.graphs.on k.source).members := by
  let p : Pass := k.laterPass (s.graphs.on k.source).takeChanges.2 hroles
  obtain ⟨done, g, hp⟩ :=
    (pass_spec (p := p) h rfl trivial (fun _ h => h) (fun h => h.elim) fun h => h.elim).1
    (pass_of_synchronize hok).1
  have hs := hp.steady.coherent.sound
  refine ⟨fun c hc hv => ?_, ?_⟩
  swap
  · rw [members_synchronize]
    have hsource : s.pass.2.graphs.on k.source = (s.graphs.on k.source).takeChanges.2 :=
      hp.steady.source
    rw [hsource]
    rfl
  obtain ⟨r, hr, hmembers⟩ := hp.roles hforced hc hv
  refine ⟨r, h.rules ▸ hr, fun child hchild => ?_⟩
  obtain ⟨hsole, hcovered⟩ := hmembers child hchild
  have hlists := (ha.ordered c hc r hr child hchild trivial).lists ((hs _).members_nodup _ _)
    (fun _ _ _ _ => ha.apart.partner_unique)
    (fun x hx => (hsole x hx).exists) hcovered fun c' hc' hin => by
      cases hi : c'.isAnchor with
      | false => rfl
      | true => exact absurd hin (ha.bare c hc r hr child hchild c' hc' hi)
  have hmembers (side : Side) :
      (s.synchronize.2.store.graphs.on side).members = (s.pass.2.store.graphs.on side).members :=
    members_synchronize s side
  unfold Store.role
  rw [hmembers, hmembers]
  exact hlists

/-- The session that a client would start over with: the source graph as it is, and nothing yet on
the other side. -/
def restart (s : Session) (source : Side) (name : String) (kind : TypeName) : Session where
  rules := s.rules
  rootRule := s.rootRule
  graphs := s.graphs.put source.other (.new name kind)
  options := s.options

/-- What a session lists that has started over. -/
theorem restart_lists (h : s.Directed k) (hs : s.Consistent) (hforced : k.forced = true)
    (hroles : k.rules.UniqueRoles k.target) (name : String) (kind : TypeName) {report : Report}
    (hok : (s.restart k.source name kind).synchronize.1 = .ok report) :
    (s.restart k.source name kind).synchronize.2.ListsAll k.source
      (s.restart k.source name kind).pass.2.visited ∧
      ((s.restart k.source name kind).synchronize.2.graphs.on k.source).members =
        (s.graphs.on k.source).members := by
  let f := s.restart k.source name kind
  have hsound (side : Side) : (f.graphs.on side).Sound := by
    rcases k.side_cases side with rfl | rfl
    · exact (Sided.on_put_of_ne s.graphs _ k.target_ne_source.symm).symm ▸ hs.sound _
    · exact (Sided.on_put_self s.graphs _ _).symm ▸ Graph.sound_new name kind
  have hf : f.Directed k := ⟨h.rules, h.rootRule, h.direction, .empty k hsound⟩
  have hconsistent : f.Consistent := .empty _ hsound
  have hk := consistent_walkState hf hconsistent
  have hbare (role : RoleName) :
      (f.collect.graphs.on k.target).members (f.collect.graphs.on k.target).root role = [] := by
    rw [members_collect]
    have hnew : f.graphs.on k.target = .new name kind := Sided.on_put_self _ _ _
    rw [hnew]
    rfl
  have haligned :=
    (wp_iff.mp
      (OneWay.aligned_syncRoots_fresh (R := fun _ _ => True) (w := f.collect.walkState)
        hroles hk rfl hbare)).1 ()
  have hpass := (pass_of_synchronize hok).1
  have hdone : k.Aligned (fun _ _ => True) f.pass.2.store := by
    rw [pass, hf.rules, hf.rootRule, hf.direction] at hpass ⊢
    exact haligned hpass
  obtain ⟨hlists, hsource⟩ := listsAll_of_aligned hf hforced hroles hok hdone
  exact ⟨hlists,
    hsource.trans (congrArg Graph.members (Sided.on_put_of_ne _ _ k.target_ne_source.symm))⟩

/-- What a session whose counterparts are in order lists after a forced pass, and what it would list
if it started over then. -/
theorem synchronize_lists (h : s.Directed k) (hforced : k.forced = true)
    (hroles : k.rules.UniqueRoles k.target) (hs : s.Consistent)
    (ha : k.Aligned (fun _ _ => True) s.store) {report : Report}
    (hok : s.synchronize.1 = .ok report) :
    s.synchronize.2.ListsAll k.source s.pass.2.visited ∧
      ∀ name kind report', (s.synchronize.2.restart k.source name kind).synchronize.1 =
        .ok report' → s.synchronize.2.ListsAlike
          (s.synchronize.2.restart k.source name kind).synchronize.2 k.source s.pass.2.visited
          (s.synchronize.2.restart k.source name kind).pass.2.visited := by
  obtain ⟨hlists, _⟩ := listsAll_of_aligned h hforced hroles hok (aligned_pass h hroles hs ha)
  refine ⟨hlists, fun name kind report' hok' => ?_⟩
  obtain ⟨hlists', hsource⟩ :=
    restart_lists h.synchronize (hs.perform .synchronize).1 hforced hroles name kind hok'
  exact hlists.alike hlists' (perform_settings _ .synchronize).1 hsource

/-- After a forced pass that left the counterparts in order, source edits of which those that are
carried over together keep the order, a flush and another pass, the target side lists the
counterparts of the source roles in their order, as a session that starts over from the edited
source would list them. -/
theorem flush_synchronize_lists (hs : s.Reachable) (hd : s.options.direction = .oneWay source true)
    (ho : s.options.propagation.isTwoWay = false) (hroles : s.rules.UniqueRoles source.other)
    {report : Report} (hok : s.synchronize.1 = .ok report) (hsorted : s.synchronize.2.Sorted source)
    {history : List Action} (hedits : EditsInOrder source s.synchronize.2 s.synchronize.2 history)
    {report' : Report}
    (hok' : (s.synchronize.2.performAll history).flush.2.synchronize.1 = .ok report') :
    let u := (s.synchronize.2.performAll history).flush.2
    u.synchronize.2.ListsAll source u.pass.2.visited ∧
      ∀ name kind report'', (u.synchronize.2.restart source name kind).synchronize.1 =
        .ok report'' →
        u.synchronize.2.ListsAlike (u.synchronize.2.restart source name kind).synchronize.2 source
          u.pass.2.visited (u.synchronize.2.restart source name kind).pass.2.visited := by
  let k := s.oneWay source true
  have h : s.Follows k := hs.follows hd ho
  have ht : s.synchronize.2.Follows k := h.synchronize
  have hc : s.synchronize.2.Consistent := (hs.consistent.perform .synchronize).1
  let p : Pass := s.nextPass source true False False id hroles
  obtain ⟨done, g, hp⟩ :=
    (pass_spec (p := p) h.toDirected rfl trivial (fun _ h => h) (fun h => h.elim) fun h => h.elim).1
    (pass_of_synchronize hok).1
  have hstart : k.Aligned (fun _ _ => True) s.synchronize.2.store :=
    hsorted.aligned ht.toDirected hc (hp.steady.rooted hp.intact)
  have hedited : k.Aligned (fun _ _ => True) (s.synchronize.2.performAll history).store :=
    aligned_performAll hroles (.refl ht hc) ht.rules hstart hedits
  have hreach := (hs.performAll [.synchronize]).performAll history
  have hfollows : (s.synchronize.2.performAll history).Follows k :=
    performAll_induction (P := (·.Follows k)) ht (fun _ a ht => ht.perform a) history
  exact synchronize_lists hfollows.flush.toDirected rfl hroles (hreach.consistent.perform .flush).1
    (aligned_flush hfollows hroles hreach.consistent hedited) hok'

/-- A node leaves the net, which is carried over, and comes back behind the others, while a new one
goes in front. -/
theorem flush_synchronize_lists_nodes :
    let s := Sample.carrying
    let history : List Action := [.edit .left [.unlink ⟨0⟩ "nodes" ⟨1⟩], .flush,
      .edit .left [.add "Node", .insert ⟨0⟩ "nodes" 0 ⟨4⟩],
      .edit .left [.set ⟨2⟩ "name" (.text "c"), .push ⟨0⟩ "nodes" ⟨1⟩]]
    let u := (s.synchronize.2.performAll history).flush.2
    let f := u.synchronize.2.restart .left "new" "Net"
    s.Reachable ∧ s.synchronize.1.toOption.isSome = true ∧ s.synchronize.2.Sorted .left ∧
      EditsInOrder .left s.synchronize.2 s.synchronize.2 history ∧
      u.synchronize.1.toOption.isSome = true ∧ f.synchronize.1.toOption.isSome = true ∧
      (s.graphs.on .left).members ⟨0⟩ "nodes" = [⟨1⟩, ⟨2⟩] ∧
      (u.synchronize.2.graphs.on .left).members ⟨0⟩ "nodes" = [⟨4⟩, ⟨2⟩, ⟨1⟩] ∧
      u.synchronize.2.ListsAll .left u.pass.2.visited ∧
      u.synchronize.2.ListsAlike f.synchronize.2 .left u.pass.2.visited f.pass.2.visited := by
  intro s history u f
  let u₁ := s.synchronize.2.perform (.edit .left [.unlink ⟨0⟩ "nodes" ⟨1⟩])
  let u₂ := u₁.perform .flush
  let u₃ := u₂.perform (.edit .left [.add "Node", .insert ⟨0⟩ "nodes" 0 ⟨4⟩])
  have hs : s.Reachable := Sample.reachable_carrying
  have hok : s.synchronize.1.toOption.isSome = true := by decide +kernel
  have hsorted : ∀ c ∈ s.synchronize.2.pairs.entries,
      ∀ r ∈ s.synchronize.2.rules.rule? c.rule, ∀ child ∈ r.children,
      s.synchronize.2.pairs.Lists .left (s.synchronize.2.store.role c child .left)
        (s.synchronize.2.store.role c child .right) := by decide +kernel
  have hkeeps : ∀ p ∈ [(s.synchronize.2, u₁), (u₂, s.synchronize.2.performAll history)],
      ∀ c ∈ p.1.pairs.entries, ∀ r ∈ p.1.rules.rule? c.rule, ∀ child ∈ r.children,
        p.1.pairs.InOrder .left (p.2.store.role c child .left) (p.1.store.role c child .right) := by
          decide +kernel
  have hu : u.synchronize.1.toOption.isSome = true := by decide +kernel
  have hf : f.synchronize.1.toOption.isSome = true := by decide +kernel
  have hmembers : (s.graphs.on .left).members ⟨0⟩ "nodes" = [⟨1⟩, ⟨2⟩] ∧
      (u.synchronize.2.graphs.on .left).members ⟨0⟩ "nodes" = [⟨4⟩, ⟨2⟩, ⟨1⟩] := by
        decide +kernel
  have hset : s.options.direction = .oneWay .left true ∧
      s.options.propagation.isTwoWay = false ∧ s.rules.UniqueRoles .right := by decide +kernel
  have hdeferred : ∀ t ∈ [s.synchronize.2, u₂, u₃],
      t.options.propagation.isImmediate ≠ true := by
    decide +kernel
  clear_value s
  have hsorted' : s.synchronize.2.Sorted .left :=
    fun c hc r hr child hchild => ⟨_, .refl _, hsorted c hc r hr child hchild⟩
  have hedits : EditsInOrder .left s.synchronize.2 s.synchronize.2 history := by
    refine ⟨rfl, (if_neg (hdeferred s.synchronize.2 (by simp))).mpr ⟨?_, rfl, ?_⟩⟩
    · exact fun c hc r hr child hchild _ => hkeeps _ (.head _) c hc r hr child hchild
    refine (if_neg (hdeferred u₂ (by simp))).mpr
      ⟨rfl, (if_neg (hdeferred u₃ (by simp))).mpr ?_⟩
    exact fun c hc r hr child hchild _ => hkeeps _ (.tail _ (.head _)) c hc r hr child hchild
  obtain ⟨report, hreport⟩ := exists_ok hok
  obtain ⟨report', hreport'⟩ := exists_ok hu
  obtain ⟨report'', hreport''⟩ := exists_ok hf
  obtain ⟨hlists, halike⟩ :=
    flush_synchronize_lists hs hset.1 hset.2.1 hset.2.2 hreport hsorted' hedits hreport'
  exact ⟨hs, hok, hsorted', hedits, hu, hf, hmembers.1, hmembers.2, hlists,
    halike "new" "Net" report'' hreport''⟩

/-- A node that leaves the net and comes back in the same batch is still there when the edits are
carried over. Its counterpart stays in its old place, which a pass does not mend either. -/
theorem flush_keeps_moved :
    let s := Sample.carrying
    let batch : List Action :=
      [.edit .left [.unlink ⟨0⟩ "nodes" ⟨1⟩, .push ⟨0⟩ "nodes" ⟨1⟩]]
    let u := (s.synchronize.2.performAll batch).flush.2
    s.Reachable ∧ s.options.direction = .oneWay .left true ∧
      s.options.propagation = .oneWay .deferred ∧
      s.isObserving .left = true ∧ s.rules.UniqueRoles .right ∧
      s.synchronize.1.toOption.isSome = true ∧ s.synchronize.2.Sorted .left ∧
      (s.synchronize.2.performAll batch).flush.1.toOption.isSome = true ∧
      u.synchronize.1.toOption.isSome = true ∧
      ¬ u.synchronize.2.ListsAll .left u.pass.2.visited := by
  intro s batch u
  have hsorted : ∀ c ∈ s.synchronize.2.pairs.entries,
      ∀ r ∈ s.synchronize.2.rules.rule? c.rule, ∀ child ∈ r.children,
      s.synchronize.2.pairs.Lists .left (s.synchronize.2.store.role c child .left)
        (s.synchronize.2.store.role c child .right) := by decide +kernel
  have hmoved : ∃ c ∈ u.synchronize.2.pairs.entries, c.id ∈ u.pass.2.visited ∧
      ∀ r ∈ u.synchronize.2.rules.rule? c.rule, ∃ child ∈ r.children,
        ¬ u.synchronize.2.pairs.Lists .left (u.synchronize.2.store.role c child .left)
          (u.synchronize.2.store.role c child .right) := by decide +kernel
  refine ⟨Sample.reachable_carrying, by decide +kernel, by decide +kernel, by decide +kernel, by
    decide +kernel,
    by decide +kernel, ?_, by decide +kernel, by decide +kernel, fun hlists => ?_⟩ <;>
      clear_value u s
  · exact fun c hc r hr child hchild => ⟨_, .refl _, hsorted c hc r hr child hchild⟩
  obtain ⟨c, hc, hv, hr⟩ := hmoved
  obtain ⟨r, hrule, hall⟩ := hlists c hc hv
  obtain ⟨child, hchild, hnot⟩ := hr r hrule
  exact hnot (hall child hchild)

end Session

end GraphSync
