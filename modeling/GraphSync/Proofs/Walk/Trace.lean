import GraphSync.Proofs.Walk.Linked

namespace GraphSync

open Walk Relation

namespace Walk

/-- A pair below itself is an error, and one that was visited is left alone; otherwise `x` is
done. -/
def unlessVisited (path : List CorrespondenceId) (rule : Rule) (id : CorrespondenceId)
    (pair : Sided ElementId) (x : Walk Unit) : Walk Unit := do
  if id ∈ path then throw (.rule (.invalid rule.name (.selfApplication pair)))
  if id ∈ (← get).visited then return
  x

/-- Marks a pair as visited and applies the parts of its rule. -/
def visit (rules : RuleSet) (d : Direction) (apply : Apply) (rule : Rule) (id : CorrespondenceId)
    (pair : Sided ElementId) : Walk Unit := do
  modify fun w => { w with visited := id :: w.visited }
  applyParts rules d apply rule id pair

theorem applyRule_succ (rules : RuleSet) (d : Direction) (fuel : Nat) (path : List CorrespondenceId)
    (rule : Rule) (id : CorrespondenceId) (pair : Sided ElementId) :
    applyRule rules d (fuel + 1) path rule id pair =
      unlessVisited path rule id pair
        (visit rules d (applyRule rules d fuel (id :: path)) rule id pair) :=
  rfl

end Walk

namespace Scheme

variable {k : Scheme} {d : Direction} {V : CorrespondenceId → Prop} {P : Error → Prop}
  {w₀ w w' : State}

/-- More writes, on behalf of some pairs. -/
theorem Went.later (h : k.Went d (fun _ => True) w₀ w) (h' : k.Went d V w w') :
    k.Went d (fun _ => True) w₀ w' :=
  h.trans (h'.mono fun _ _ => trivial)

variable {id : CorrespondenceId} {rule r : Rule} {pair : Sided ElementId} {child : Child}
  {auth : Side} {apply : Apply} {c : Correspondence}

/-- A binding asks for both elements of the pair. -/
theorem traces_applyBinding (h : k.Consistent w.graphs w.pairs)
    (hn : (∀ s, (w.graphs.on s).contains (pair.on s) = true) → w.store.Names id rule pair)
    (hp : ∀ s, (w.graphs.on s).contains (pair.on s) = false →
      P (.graph (.unknownElement (pair.on s))))
    (hr : k.rules.rule? rule.name = some rule) (hv : V id) {b : Binding} {index : Nat}
    (hbi : (b, index) ∈ rule.numbered) :
    k.Traces d V P (applyBinding d rule.name id pair b index) w := by
  apply wp_applyBinding
  · exact fun s hd => ⟨.refl h, ⟨nofun, nofun⟩, hp s hd⟩
  · intro live inStep hverdict
    obtain rfl := Binding.inStep_of_verdict hverdict
    split
    · rename_i hin
      exact .act h (.remember hv (hn live) hr hbi hin) rfl rfl
    · exact .refl h
  · intro _ _
    exact .same h rfl rfl rfl
  · intro live source hverdict g' hw
    exact .act h (.copy hv (hn live) hr hbi (Binding.source_of_verdict hverdict) hw) rfl rfl

/-- A rule may be applied to every recorded pair with live elements that a walk from `w₀` comes to;
no element is missed then. -/
def Applies (k : Scheme) (d : Direction) (P : Error → Prop) (w₀ : State)
    (apply : Apply) : Prop :=
  ∀ (r : Rule) (c : Correspondence) (w : State), k.Went d (fun _ => True) w₀ w →
    k.rules.rule? c.rule = some r →
    c ∈ w.pairs.entries → (∀ s, (w.graphs.on s).contains (c.element s) = true) →
      k.Traces d (fun _ => False) P (apply r c.id c.elements) w

/-- `P` holds of what the rules may be at fault for in a walk from `a`: a pair below itself, and a
member without a rule. -/
structure Allows (k : Scheme) (d : Direction) (P : Error → Prop) (a : Store) : Prop where
  selfApplication : ∀ name pair, P (.rule (.invalid name (.selfApplication pair)))
  noRule : ∀ b types, Acts k d (fun _ => True) a b → k.Unruled d b types →
    P (.rule (.noRule types))

namespace Allows

theorem of_rule {a : Store} (h : ∀ e, P (.rule e)) : k.Allows d P a :=
  ⟨fun _ _ => h _, fun _ _ _ _ => h _⟩

theorem later (h : k.Allows d P w₀.store) (hw : k.Went d V w₀ w) : k.Allows d P w.store :=
  ⟨h.selfApplication, fun b types hb =>
    h.noRule b types ((hw.acts.mono fun _ _ => trivial).trans hb)⟩

end Allows

section Apply

variable (happly : k.Applies d P w₀ apply) (hallow : k.Allows d P w₀.store)
  (hr : k.rules.rule? rule.name = some rule) (hv : V id)

include happly hallow hr hv

/-- A member asks for the owner of the role on the other side. -/
theorem traces_linkMember (h : k.Went d (fun _ => True) w₀ w)
    (hn : (∀ s, (w.graphs.on s).contains (pair.on s) = true) → w.store.Names id rule pair)
    (hp : (w.graphs.on auth.other).contains (pair.on auth.other) = false →
      P (.graph (.unknownElement (pair.on auth.other))))
    (hauth : auth ∈ d.authorities) (hchild : child ∈ rule.children) {m : ElementId}
    (hm : m ∈ (w.graphs.on auth).members (pair.on auth) (child.roles.on auth))
    (earlier later : List ElementId) :
    k.Traces d V P
      (linkMember k.rules d apply child auth (pair.on auth.other) earlier m later) w := by
  refine wp_linkMember h.consistent hn hr hv hauth hchild hm earlier later
    (fun hd => ⟨.refl h.consistent, ⟨nofun, nofun⟩, hp hd⟩)
    (fun types hu => ⟨.refl h.consistent, ⟨nofun, nofun⟩, (hallow.later h).noRule _ types .refl hu⟩)
    fun r c w' hl => ?_
  have htraces : k.Traces d V P (apply r c.id c.elements) w' :=
    (happly r c w' (h.later hl.went) hl.rule hl.entry hl.live).mono (fun _ hf => hf.elim)
      fun _ he => he
  exact wp_mono htraces (fun _ _ h' => hl.went.trans h') fun _ _ h' =>
    ⟨hl.went.trans h'.1, h'.2⟩

theorem traces_linkMembers (hauth : auth ∈ d.authorities) (hchild : child ∈ rule.children)
    (ms earlier : List ElementId) {w : State} (h : k.Went d (fun _ => True) w₀ w)
    (hn : w.store.Names id rule pair)
    (hms : ∀ m ∈ ms, m ∈ (w.graphs.on auth).members (pair.on auth) (child.roles.on auth)) :
    k.Traces d V P (linkMembers k.rules d apply child auth (pair.on auth.other) earlier ms) w := by
  induction ms generalizing earlier w with
  | nil => exact .pure h.consistent _
  | cons m later ih =>
    refine .bind
      (traces_linkMember happly hallow hr hv h (fun _ => hn) (hn.absurd_dead h.consistent)
      hauth hchild (hms m (by simp)) earlier later) fun _ w₁ h₁ => ?_
    refine .bind (ih _ (h.later h₁) (h₁.acts.names h.consistent hn) fun m' hm' => ?_)
      fun _ _ h₂ => .pure h₂.consistent _
    exact h₁.acts.members h.consistent hauth (hms m' (by simp [hm']))

omit happly hallow in
theorem traces_unlinkStale (hauth : auth ∈ d.authorities) (hforced : d.isForced = true)
    (hchild : child ∈ rule.children) (h : k.Consistent w.graphs w.pairs)
    (hn : w.store.Names id rule pair) (partners : List ElementId) :
    k.Traces d V P (unlinkStale child auth (pair.on auth.other) partners) w := by
  have hlive : (w.graphs.on auth.other).contains (pair.on auth.other) = true :=
    hn.live h.sound auth.other
  rw [Traces, unlinkStale, wp_bind, wp_graph, wp_bind, wp_liftGraph, Graph.references_eq,
    if_pos hlive]
  refine Traces.forM h fun y _ w₁ h₁ => ?_
  rw [Traces, wp_bind, wp_pairs, wp_ite]
  split
  · rename_i hstale
    obtain ⟨x, hx⟩ := List.exists_mem_of_ne_nil _ hstale.2
    obtain ⟨c, hc, hy, _⟩ := Correspondences.mem_partners.mp hx
    have hlive₁ : (w₁.graphs.on auth.other).contains (pair.on auth.other) = true :=
      h₁.acts.contains h hlive
    rw [wp_bind, wp_onGraph, Graph.removeReference_eq, if_pos hlive₁]
    have hs := h₁.consistent.sound auth.other
    exact .act h₁.consistent
      (.unlink hforced hv (h₁.acts.names h hn) hauth (hs.relists_dropReference _ _ _)
      ⟨hr, child, hchild, rfl⟩ ⟨c, hc, hy⟩) rfl rfl
  · exact .refl h₁.consistent

theorem traces_syncRole (h : k.Went d (fun _ => True) w₀ w) (hn : w.store.Names id rule pair)
    (hauth : auth ∈ d.authorities) (hchild : child ∈ rule.children) :
    k.Traces d V P (syncRole k.rules d apply child auth pair) w := by
  have hlive : (w.graphs.on auth).contains (pair.on auth) = true := hn.live h.consistent.sound auth
  rw [Traces, syncRole, wp_bind, wp_graph, wp_bind, wp_liftGraph, Graph.references_eq, if_pos hlive]
  refine Traces.bind (traces_linkMembers happly hallow hr hv hauth hchild _ [] h hn fun _ hm => hm)
    fun partners w₁ h₁ => ?_
  split
  · rename_i hforced
    exact traces_unlinkStale hr hv hauth hforced hchild h₁.consistent
      (h₁.acts.names h.consistent hn) partners
  · exact .pure h₁.consistent _

theorem traces_applyParts (h : k.Went d (fun _ => True) w₀ w) (hn : w.store.Names id rule pair) :
    k.Traces d V P (applyParts k.rules d apply rule id pair) w := by
  refine .bind (.forM h.consistent fun bi hbi w₁ h₁ => ?_) fun _ w₁ h₁ => ?_
  · have hn₁ := h₁.acts.names h.consistent hn
    exact .bind
      (traces_applyBinding h₁.consistent (fun _ => hn₁)
        (fun _ => hn₁.absurd_dead h₁.consistent) hr hv hbi)
      fun _ _ h₂ => .pure h₂.consistent _
  · refine .forM h₁.consistent fun child hchild w₂ h₂ =>
      .forM h₂.consistent fun auth hauth w₃ h₃ => ?_
    have h₃ := (h₁.trans h₂).trans h₃
    exact traces_syncRole happly hallow hr hv (h.later h₃) (h₃.acts.names h.consistent hn)
      hauth hchild

end Apply

/-- A recorded pair is marked as visited. -/
theorem Went.mark (h : k.Consistent w.graphs w.pairs) (hc : c ∈ w.pairs.entries)
    (hl : ∀ s, (w.graphs.on s).contains (c.element s) = true) (hnew : c.id ∉ w.visited) :
    k.Went d V w { w with visited := c.id :: w.visited } := by
  refine ⟨h, fun _ hi => List.mem_cons_of_mem _ hi, fun hn => List.nodup_cons.mpr ⟨hnew, hn⟩,
    fun i hi => ?_, rfl, .refl⟩
  rcases List.mem_cons.mp hi with rfl | hi
  · cases ha : c.isAnchor with
    | false => exact .inr (.inl ⟨c, hc, rfl, ha, hl⟩)
    | true => exact .inr (.inr ⟨c, hc, rfl, ha⟩)
  · exact .inl hi

/-- The writes are on behalf of the pair that is visited now, or of one visited below it. -/
theorem Went.visit (h : k.Consistent w.graphs w.pairs) (hc : c ∈ w.pairs.entries)
    (hl : ∀ s, (w.graphs.on s).contains (c.element s) = true) (hnew : c.id ∉ w.visited)
    (hw : k.Went d (· = c.id) { w with visited := c.id :: w.visited } w') :
    k.Went d (fun _ => False) w w' := by
  have hall : k.Went d (· = c.id) w w' := (Went.mark h hc hl hnew).trans hw
  refine ⟨hall.consistent, hall.visited, hall.once, hall.paired, hall.deleted,
    hall.acts.mono fun i hi => .inr ?_⟩
  rcases hi with rfl | hi
  · exact ⟨hw.visited List.mem_cons_self, hnew⟩
  · exact hi

theorem traces_unlessVisited {x : Walk Unit} (h : k.Consistent w.graphs w.pairs)
    (hallow : k.Allows d P w.store) (path : List CorrespondenceId)
    (hx : id ∉ w.visited → k.Traces d V P x w) :
    k.Traces d V P (unlessVisited path rule id pair x) w := by
  rw [Traces, unlessVisited, wp_ite]
  split
  · exact ⟨.refl h, ⟨by simp, by simp⟩, hallow.selfApplication _ _⟩
  · rw [wp_bind, wp_get, wp_ite]
    split
    · exact .refl h
    · rename_i hnew
      exact hx hnew

theorem traces_visit (hallow : k.Allows d P w.store) (h : k.Consistent w.graphs w.pairs)
    (hr : k.rules.rule? c.rule = some r) (hc : c ∈ w.pairs.entries)
    (hl : ∀ s, (w.graphs.on s).contains (c.element s) = true) (hnew : c.id ∉ w.visited)
    (happly : k.Applies d P { w with visited := c.id :: w.visited } apply) :
    k.Traces d (fun _ => False) P (visit k.rules d apply r c.id c.elements) w := by
  have hname := (RuleSet.mem_of_rule? hr).2
  have hn : w.store.Names c.id r c.elements := .of_entry h hc hl hr
  have hparts := traces_applyParts (V := (· = c.id)) happly hallow (hname ▸ hr) rfl (.refl h) hn
  rw [Traces, visit, wp_bind, wp_modify]
  exact wp_mono hparts (fun _ _ hw => .visit h hc hl hnew hw) fun _ _ hw =>
    ⟨.visit h hc hl hnew hw.1, hw.2⟩

theorem applies_applyRule (hallow : k.Allows d P w₀.store) (hdeep : P .tooDeep) (fuel : Nat)
    (path : List CorrespondenceId) : k.Applies d P w₀ (applyRule k.rules d fuel path) := by
  induction fuel generalizing path w₀ with
  | zero => exact fun _ _ _ hw _ _ _ => .throw hw.consistent ⟨by simp, by simp⟩ hdeep
  | succ fuel ih =>
    intro r c w hw hr hc hl
    rw [applyRule_succ]
    have hlater := hallow.later hw
    have hmarked : k.Allows d P (State.store { w with visited := c.id :: w.visited }) := hlater
    exact traces_unlessVisited hw.consistent hlater path fun hnew =>
      traces_visit hlater hw.consistent hr hc hl hnew (ih hmarked (c.id :: path))

theorem applies_start (hallow : k.Allows d P w₀.store) (hdeep : P .tooDeep) :
    k.Applies d P w₀ (start k.rules d) :=
  fun r c w hw hr hc hl =>
    applies_applyRule hallow hdeep (nestingLimit k.rules d w.graphs) [] r c w hw hr hc hl

theorem traces_start (h : k.Consistent w.graphs w.pairs) (hr : k.rules.rule? c.rule = some r)
    (hc : c ∈ w.pairs.entries) (hl : ∀ s, (w.graphs.on s).contains (c.element s) = true) :
    k.Traces d (fun _ => False) (Error.OfGraph fun _ => False)
      (start k.rules d r c.id c.elements) w :=
  applies_start (.of_rule Error.ofGraph_rule) Error.ofGraph_tooDeep r c w (.refl h) hr hc hl

end Scheme

end GraphSync
