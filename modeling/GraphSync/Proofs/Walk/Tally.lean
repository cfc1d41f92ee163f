import GraphSync.Proofs.Correspondence.Consistent
import GraphSync.Proofs.Graph.Count
import GraphSync.Proofs.Graph.Journal
import GraphSync.Proofs.Walk.Release

namespace GraphSync

namespace Correspondences

variable {t : Correspondences}

/-- Dropping a recorded pair leaves one pair less. -/
theorem Listed.length_remove (h : t.Listed) {c : Correspondence} (hc : c ∈ t.entries) :
    (t.remove c.id).entries.length + 1 = t.entries.length := by
  have hentries : (t.remove c.id).entries = t.entries.erase c := by
    rw [h.entries_nodup.erase_eq_filter]
    refine List.filter_congr fun a ha => ?_
    have hiff : a.id ≠ c.id ↔ a ≠ c := not_congr ⟨h.eq_of_id ha hc, congrArg _⟩
    simp [hiff, bne, Bool.beq_eq_decide_eq]
  rw [hentries, List.length_erase_of_mem hc, Nat.sub_add_cancel (List.length_pos_of_mem hc)]

theorem obtain?_ok {rule : RuleName} {pair : Sided ElementId} {d : Direction} {o : Obtained}
    {t' : Correspondences} (h : t.obtain? rule pair d = .ok (o, t')) :
    (o.created = false ∧ t' = t) ∨
      (o.created = true ∧
        t' = { entries := t.entries ++ [t.newEntry rule pair d], next := t.next + 1 }) := by
  unfold obtain? at h
  split at h
  · split at h
    · cases h
      exact .inl ⟨rfl, rfl⟩
    · cases h
  · cases h
    exact .inr ⟨rfl, rfl⟩

end Correspondences

/-- The numbers of a report. -/
def Report.counters (r : Report) : Report := { r with conflicts := [] }

theorem Report.counters_addConflict (r : Report) (c : Conflict) :
    (r.addConflict c).counters = r.counters := by
  unfold addConflict
  split <;> rfl

namespace Walk

/-- The number of elements on both sides. -/
def State.size (w : State) : Nat := w.graphs.left.size + w.graphs.right.size

/-- The number of members in all roles of both sides. -/
def State.links (w : State) : Nat := w.graphs.left.links + w.graphs.right.links

/-- What counting relies on: elements and pairs are listed once. -/
structure State.Fit (w : State) : Prop where
  sound : ∀ s, (w.graphs.on s).Sound
  listed : w.pairs.Listed

/-- From `w` to `w'` the report has counted what was done, and where it has counted nothing, nothing
was done. -/
structure Tallies (w w' : State) : Prop where
  fit : w'.Fit
  elements : w'.size + w.report.elementsCreated = w.size + w'.report.elementsCreated
  pairs : w'.pairs.entries.length + w'.report.pairsReleased + w.report.pairsCreated =
    w.pairs.entries.length + w.report.pairsReleased + w'.report.pairsCreated
  links : w'.links + w'.report.referencesUnlinked + w.report.referencesLinked =
    w.links + w.report.referencesUnlinked + w'.report.referencesLinked
  grows : w.report.effects ≤ w'.report.effects
  idle : w'.report.effects = w.report.effects → w'.graphs = w.graphs ∧
    w'.pairs.next = w.pairs.next ∧
    w'.pairs.entries.map Correspondence.core = w.pairs.entries.map Correspondence.core

namespace Tallies

variable {w w' w'' : State} {s : Side} {g : Graph} {r : Report} {t : Correspondences}

theorem trans (h : Tallies w w') (h' : Tallies w' w'') : Tallies w w'' where
  fit := h'.fit
  elements := by
    have h₁ := h.elements
    have h₂ := h'.elements
    omega
  pairs := by
    have h₁ := h.pairs
    have h₂ := h'.pairs
    omega
  links := by
    have h₁ := h.links
    have h₂ := h'.links
    omega
  grows := Nat.le_trans h.grows h'.grows
  idle he := by
    have h₁ := h.grows
    have h₂ := h'.grows
    obtain ⟨hg, hn, hc⟩ := h.idle (by omega)
    obtain ⟨hg', hn', hc'⟩ := h'.idle (by omega)
    exact ⟨hg'.trans hg, hn'.trans hn, hc'.trans hc⟩

/-- Nothing happens, but for what is remembered and what is not counted. -/
theorem same (h : w.Fit) (hg : w'.graphs = w.graphs) (hl : w'.pairs.Listed)
    (hn : w'.pairs.next = w.pairs.next)
    (hc : w'.pairs.entries.map Correspondence.core = w.pairs.entries.map Correspondence.core)
    (hr : w'.report.counters = w.report.counters) : Tallies w w' := by
  have hlength := congrArg List.length hc
  simp only [List.length_map] at hlength
  obtain ⟨e₁, e₂, e₃, e₄, e₅, e₆, _⟩ := Report.mk.inj hr
  have heffects : w'.report.effects = w.report.effects := by
    simp only [Report.effects, e₁, e₂, e₃, e₄, e₅, e₆]
  refine ⟨⟨hg ▸ h.sound, hl⟩, ?_, ?_, ?_, Nat.le_of_eq heffects.symm,
    fun _ => ⟨hg, hn, hc⟩⟩
  · rw [State.size, State.size, hg, e₁]
  · rw [hlength, e₂, e₃]
  · rw [State.links, State.links, hg, e₅, e₆]

theorem refl (h : w.Fit) : Tallies w w := .same h rfl h.listed rfl rfl rfl

/-- One graph is written, and that is counted. -/
theorem write (h : w.Fit) (hs : g.Sound)
    (hsize : g.size + w.report.elementsCreated = (w.graphs.on s).size + r.elementsCreated)
    (hlinks : g.links + r.referencesUnlinked + w.report.referencesLinked =
      (w.graphs.on s).links + w.report.referencesUnlinked + r.referencesLinked)
    (hpairs : r.pairsCreated = w.report.pairsCreated ∧ r.pairsReleased = w.report.pairsReleased)
    (hmore : w.report.effects < r.effects) :
    Tallies w { w with graphs := w.graphs.put s g, report := r } where
  fit := by
    refine ⟨fun t => ?_, h.listed⟩
    by_cases ht : t = s
    · subst ht
      rwa [Sided.on_put_self]
    · rw [Sided.on_put_of_ne _ _ ht]
      exact h.sound t
  elements := by
    cases s <;> simp only [State.size, Sided.put, Sided.on] at hsize ⊢ <;> omega
  pairs := by simp only [hpairs]
  links := by
    cases s <;> simp only [State.links, Sided.put, Sided.on] at hlinks ⊢ <;> omega
  grows := Nat.le_of_lt hmore
  idle he := absurd he (Nat.ne_of_gt hmore)

/-- The record changes, and that is counted. -/
theorem rewrite (h : w.Fit) (hl : t.Listed)
    (hpairs : t.entries.length + r.pairsReleased + w.report.pairsCreated =
      w.pairs.entries.length + w.report.pairsReleased + r.pairsCreated)
    (hsame : r.elementsCreated = w.report.elementsCreated ∧
      r.referencesLinked = w.report.referencesLinked ∧
      r.referencesUnlinked = w.report.referencesUnlinked)
    (hmore : w.report.effects < r.effects) : Tallies w { w with pairs := t, report := r } where
  fit := ⟨h.sound, hl⟩
  elements := by simp only [State.size, hsame]
  pairs := hpairs
  links := by simp only [State.links, hsame]
  grows := Nat.le_of_lt hmore
  idle he := absurd he (Nat.ne_of_gt hmore)

end Tallies

/-- The walk counts what it does, however it ends. -/
def Accounts {α : Type} (x : Walk α) : Prop :=
  ∀ w : State, w.Fit → wp x (fun _ => Tallies w) (fun _ => Tallies w) w

namespace Accounts

variable {α β : Type} {w w' : State}

/-- What comes after has counted from its own start. -/
theorem after {x : Walk α} (hx : Accounts x) (h : Tallies w w') :
    wp x (fun _ => Tallies w) (fun _ => Tallies w) w' :=
  wp_mono (hx w' h.fit) (fun _ _ h' => h.trans h') fun _ _ h' => h.trans h'

theorem pure (a : α) : Accounts (Pure.pure a) := fun _ h => .refl h

theorem throw (e : Error) : Accounts (throw e : Walk α) := fun _ h => .refl h

theorem bind {x : Walk β} {f : β → Walk α} (hx : Accounts x) (hf : ∀ b, Accounts (f b)) :
    Accounts (x >>= f) := by
  intro w h
  rw [wp_bind]
  exact wp_imp (hx w h) fun b _ h' => (hf b).after h'

theorem ite (c : Prop) [Decidable c] {x y : Walk α} (hx : Accounts x) (hy : Accounts y) :
    Accounts (if c then x else y) := by
  split
  · exact hx
  · exact hy

theorem get : Accounts (MonadState.get : Walk State) := fun _ h => .refl h

theorem graph (s : Side) : Accounts (Walk.graph s) := fun _ h => .refl h

theorem pairs : Accounts Walk.pairs := fun _ h => .refl h

theorem liftGraph (r : Except GraphError α) : Accounts (Walk.liftGraph r) := by
  cases r with
  | ok a => exact pure a
  | error e => exact throw _

theorem liftRule (r : Except RuleError α) : Accounts (Walk.liftRule r) := by
  cases r with
  | ok a => exact pure a
  | error e => exact throw _

/-- Which pairs were visited and which deletions were met does not count. -/
theorem modify {f : State → State} (hg : ∀ w, (f w).graphs = w.graphs)
    (hp : ∀ w, (f w).pairs = w.pairs) (hr : ∀ w, (f w).report = w.report) :
    Accounts (MonadState.modifyGet fun w => ((), f w) : Walk Unit) := by
  intro w h
  exact .same h (hg w) (hp w ▸ h.listed) (by rw [hp]) (by rw [hp]) (by rw [hr])

theorem forM {f : α → Walk Unit} {l : List α} (hf : ∀ a, Accounts (f a)) :
    Accounts (l.forM f) :=
  fun w h => wp_forM_keep (I := Tallies w) (fun a _ _ h' => (hf a).after h') (.refl h)

end Accounts

theorem accounts_recordShadow (id : CorrespondenceId) (index : Nat) (values : Shadow) :
    Accounts (recordShadow id index values) := by
  intro w h
  refine .same h rfl (h.listed.map fun c => by split <;> rfl) rfl ?_ rfl
  simp only [Correspondences.recordShadow, Correspondences.modify, List.map_map]
  refine List.map_congr_left fun c _ => ?_
  rw [Function.comp_apply]
  split <;> rfl

theorem accounts_addConflict (c : Conflict) : Accounts (note (·.addConflict c)) := fun w h =>
  .same h rfl h.listed rfl rfl (w.report.counters_addConflict c)

theorem tallies_releasePair {w : State} (h : w.Fit) {c : Correspondence}
    (hc : c ∈ w.pairs.entries) :
    Tallies w { w with
      pairs := w.pairs.remove c.id
      report := { w.report with pairsReleased := w.report.pairsReleased + 1 } } := by
  have hlength := h.listed.length_remove hc
  refine .rewrite h (h.listed.sublist List.filter_sublist rfl) ?_ ⟨rfl, rfl, rfl⟩ ?_
  · dsimp only
    omega
  · simp only [Report.effects]
    omega

/-- A write to one graph, with its count. -/
theorem Accounts.counted {α β : Type} {s : Side} {f : Graph → Except GraphError (β × Graph)}
    {r : Report → Report} {k : β → Walk α}
    (hf : ∀ w : State, w.Fit → ∀ b g, f (w.graphs.on s) = .ok (b, g) →
      Tallies w { w with graphs := w.graphs.put s g, report := r w.report })
    (hk : ∀ b, Accounts (k b)) : Accounts (onGraph s f >>= fun b => note r >>= fun _ => k b) := by
  intro w h
  rw [wp_bind, wp_onGraph]
  cases hr : f (w.graphs.on s) with
  | error e => exact .refl h
  | ok p =>
    obtain ⟨b, g⟩ := p
    exact (hk b).after (hf w h b g hr)

theorem tallies_dropReference {w : State} (h : w.Fit) {s : Side} {owner target : ElementId}
    {role : RoleName} (hm : target ∈ (w.graphs.on s).members owner role) : Tallies w { w with
      graphs := w.graphs.put s ((w.graphs.on s).dropReference owner role target)
      report := { w.report with referencesUnlinked := w.report.referencesUnlinked + 1 } } := by
  obtain ⟨hsize, hlinks⟩ := Graph.counts_dropReference (h.sound s) hm
  refine .write h ((h.sound s).dropReference owner role target).sound (by rw [hsize]) ?_
    ⟨rfl, rfl⟩ ?_
  · dsimp only
    omega
  · simp only [Report.effects]
    omega

/-- A member that is taken out is counted, one that is not there is not. -/
theorem tallies_unlink {w : State} (h : w.Fit) (s : Side) (owner : ElementId) (role : RoleName)
    (target : ElementId) :
    wp (unlink s owner role target) (fun _ w' => Tallies w w' ∧ w'.pairs = w.pairs)
      (fun _ => Tallies w) w := by
  refine wp_unlink (fun _ => .refl h) fun _ unlinked hcount => ⟨?_, rfl⟩
  subst hcount
  by_cases hm : target ∈ (w.graphs.on s).members owner role
  · rw [if_pos hm]
    exact tallies_dropReference h hm
  · rcases Graph.dropReference_cases (w.graphs.on s) owner target role with ⟨_, hsame⟩ | ⟨hin, _⟩
    · rw [if_neg hm, hsame, Sided.put_on, Nat.add_zero]
      exact .refl h
    · exact absurd hin hm

theorem accounts_applyBinding (d : Direction) (rule : RuleName) (id : CorrespondenceId)
    (pair : Sided ElementId) (b : Binding) (index : Nat) :
    Accounts (applyBinding d rule id pair b index) := by
  refine .bind .get fun w => .bind (.liftGraph _) fun left => .bind (.liftGraph _) fun right => ?_
  dsimp only
  split
  · exact .ite _ (.bind (accounts_recordShadow _ _ _) fun _ => .pure _) (.pure _)
  · exact .bind (accounts_addConflict _) fun _ => .pure _
  · refine .counted (fun w h before g hr => ?_) fun _ =>
      .bind (accounts_recordShadow _ _ _) fun _ => .pure _
    obtain ⟨hsize, hlinks⟩ := Graph.counts_setValue (h.sound _) hr
    have hsound : g.Sound := ((h.sound _).setValue (Graph.rewrites_of_setValue hr).2).sound
    refine .write h hsound (by rw [hsize]) (by rw [hlinks]) ⟨rfl, rfl⟩ ?_
    simp only [Report.effects]
    omega

theorem accounts_link (auth : Side) (owner : ElementId) (role : RoleName) (target : ElementId)
    (earlier later : List ElementId) : Accounts (link auth owner role target earlier later) := by
  intro w h
  simp only [link, wp_bind, wp_graph, wp_liftGraph, wp_pairs, wp_ite, Graph.references_eq]
  cases ho : (w.graphs.on auth.other).contains owner with
  | false => exact .refl h
  | true =>
    simp only [if_true]
    split
    · exact .refl h
    · rename_i hnew
      rw [wp_onGraph]
      cases hr : (w.graphs.on auth.other).insertReference owner role
          (w.pairs.slot auth ((w.graphs.on auth.other).members owner role) earlier later)
          target with
      | error e => exact .refl h
      | ok p =>
        obtain ⟨hsize, hlinks⟩ := Graph.counts_insertReference (h.sound _) hnew hr
        obtain ⟨cs, hlogs, _⟩ := Graph.logs_insertReference hr
        refine .write h (hlogs.follows (h.sound _)).sound (by rw [hsize]) ?_ ⟨rfl, rfl⟩ ?_
        · dsimp only
          omega
        · simp only [Report.effects]
          omega

theorem accounts_create (rules : RuleSet) (child : Child) (auth : Side) (member : ElementId) :
    Accounts (create rules child auth member) := by
  have make (rule : Rule) : Accounts (do
      let created ← onGraph auth.other fun g => .ok (g.add (rule.types.on auth.other))
      note fun r => { r with elementsCreated := r.elementsCreated + 1 }
      return (rule, created)) := by
    refine .counted (fun w h created g hr => ?_) fun _ => .pure _
    obtain rfl : ((w.graphs.on auth.other).add (rule.types.on auth.other)).2 = g :=
      congrArg Prod.snd (Except.ok.inj hr)
    obtain ⟨hsize, hlinks⟩ := (w.graphs.on auth.other).counts_add (rule.types.on auth.other)
    refine .write h ((h.sound _).add _).sound ?_ (by rw [hlinks]) ⟨rfl, rfl⟩ ?_
    · dsimp only
      omega
    · simp only [Report.effects]
      omega
  refine .bind (.graph _) fun g => .bind (.liftGraph _) fun kind =>
    .bind (.liftRule _) fun rule => ?_
  intro w h
  rw [wp_bind, wp_pairs]
  -- what is dropped was found in the record
  cases hl : w.pairs.lookup? rule.name auth member with
  | none => exact make rule w h
  | some stale =>
    have hdrop := tallies_releasePair h (Correspondences.of_lookup?_eq_some hl).1
    rw [wp_bind, wp_releasePair]
    exact (make rule).after hdrop

theorem accounts_findOrCreate (rules : RuleSet) (child : Child) (auth : Side)
    (owner member : ElementId) : Accounts (findOrCreate rules child auth owner member) := by
  refine .bind (.graph _) fun g => .bind (.liftGraph _) fun present => .bind .pairs fun t => ?_
  split
  · exact .bind (.liftRule _) fun _ => .pure _
  · exact accounts_create rules child auth member

section Apply

variable {rules : RuleSet} {d : Direction} {apply : Apply}
  (ha : ∀ rule id pair, Accounts (apply rule id pair))

include ha

theorem accounts_enter (rule : Rule) (pair : Sided ElementId) :
    Accounts (enter d apply rule pair) := by
  intro w h
  cases ho : w.pairs.obtain? rule.name pair d with
  | error c =>
    rw [enter, wp_bind, wp_onPairs, ho]
    exact .refl h
  | ok p =>
    obtain ⟨o, t⟩ := p
    refine wp_enter ho ((ha rule o.id pair).after ?_)
    rcases Correspondences.obtain?_ok ho with ⟨hold, rfl⟩ | ⟨hnew, rfl⟩
    · simp only [hold]
      exact .refl h
    · simp only [hnew, if_true]
      refine .rewrite h (h.listed.append rfl) ?_ ⟨rfl, rfl, rfl⟩ ?_
      · simp only [List.length_append, List.length_singleton]
        omega
      · simp only [Report.effects]
        omega

theorem accounts_linkMember (child : Child) (auth : Side) (owner : ElementId)
    (earlier : List ElementId) (member : ElementId) (later : List ElementId) :
    Accounts (linkMember rules d apply child auth owner earlier member later) :=
  .bind (accounts_findOrCreate _ _ _ _ _) fun _ => .bind (accounts_link _ _ _ _ _ _) fun _ =>
    .bind (accounts_enter ha _ _) fun _ => .pure _

theorem accounts_linkMembers (child : Child) (auth : Side) (owner : ElementId)
    (members earlier : List ElementId) :
    Accounts (linkMembers rules d apply child auth owner earlier members) := by
  induction members generalizing earlier with
  | nil => exact .pure _
  | cons member later ih =>
    exact .bind (accounts_linkMember ha child auth owner earlier member later) fun _ =>
      .bind (ih _) fun _ => .pure _

end Apply

/-- Of the members that were there at the start, each is there until it is taken out, so each counts
once. -/
theorem accounts_unlinkStale (child : Child) (auth : Side) (owner : ElementId)
    (partners : List ElementId) : Accounts (unlinkStale child auth owner partners) := by
  intro w h
  simp only [unlinkStale, wp_bind, wp_graph, wp_liftGraph, Graph.references_eq]
  cases ho : (w.graphs.on auth.other).contains owner with
  | false => exact .refl h
  | true =>
    simp only [if_true]
    have hnodup := (h.sound auth.other).members_nodup owner (child.roles.on auth.other)
    refine wp_imp (wp_forM_worked (I := fun pre w' => Tallies w w' ∧
      ∀ e ∈ (w.graphs.on auth.other).members owner (child.roles.on auth.other), e ∉ pre →
        e ∈ (w'.graphs.on auth.other).members owner (child.roles.on auth.other)) ?_
        ⟨.refl h, fun _ he _ => he⟩)
      fun _ _ h' => h'.1
    rintro pre e post hsplit w₁ ⟨ht, hleft⟩
    rw [hsplit, List.nodup_append] at hnodup
    have hnew : e ∉ pre := fun hp => hnodup.2.2 e hp e List.mem_cons_self rfl
    have hmember := hleft e (hsplit ▸ by simp) hnew
    rw [wp_bind, wp_pairs, wp_ite]
    split
    · rw [wp_bind, wp_onGraph, Graph.removeReference_eq,
        if_pos (Graph.contains_of_mem_members hmember)]
      refine ⟨ht.trans (tallies_dropReference ht.fit hmember), fun e' he' hn => ?_⟩
      rw [List.mem_append, not_or, List.mem_singleton] at hn
      have hdrop :=
        (ht.fit.sound auth.other).relists_dropReference owner (child.roles.on auth.other) e
      rw [Sided.on_put_self, hdrop.members_self, List.mem_filter, decide_eq_true_eq]
      exact ⟨hleft e' he' hn.1, hn.2⟩
    · exact ⟨ht, fun e' he' hn => hleft e' he' fun hp => hn (List.mem_append_left _ hp)⟩

section Apply

variable {rules : RuleSet} {d : Direction} {apply : Apply}
  (ha : ∀ rule id pair, Accounts (apply rule id pair))

include ha

theorem accounts_syncRole (child : Child) (auth : Side) (pair : Sided ElementId) :
    Accounts (syncRole rules d apply child auth pair) := by
  refine .bind (.graph _) fun g => .bind (.liftGraph _) fun members => ?_
  refine .bind (accounts_linkMembers ha child auth _ members []) fun partners => ?_
  exact .ite _ (accounts_unlinkStale _ _ _ _) (.pure _)

theorem accounts_applyParts (rule : Rule) (id : CorrespondenceId) (pair : Sided ElementId) :
    Accounts (applyParts rules d apply rule id pair) := by
  refine .bind (.forM fun bi => .bind (accounts_applyBinding _ _ _ _ _ _) fun _ => .pure _)
    fun _ => ?_
  exact .forM fun child => .forM fun auth => accounts_syncRole ha child auth pair

end Apply

theorem accounts_applyRule (rules : RuleSet) (d : Direction) (fuel : Nat)
    (path : List CorrespondenceId) (rule : Rule) (id : CorrespondenceId) (pair : Sided ElementId) :
    Accounts (applyRule rules d fuel path rule id pair) := by
  induction fuel generalizing path rule id pair with
  | zero => exact .throw _
  | succ fuel ih =>
    unfold applyRule
    have parts : Accounts (applyParts rules d (applyRule rules d fuel (id :: path)) rule id pair) :=
      accounts_applyParts (ih (id :: path)) rule id pair
    refine .ite _ (.bind (.throw _) fun _ => ?_) ?_ <;>
      exact .bind .get fun w => .ite _ (.pure _)
        (.bind (.modify (fun _ => rfl) (fun _ => rfl) fun _ => rfl) fun _ => parts)

theorem accounts_start (rules : RuleSet) (d : Direction) (rule : Rule) (id : CorrespondenceId)
    (pair : Sided ElementId) : Accounts (start rules d rule id pair) :=
  .bind .get fun _ => accounts_applyRule _ _ _ _ _ _ _

section Release

variable {rules : RuleSet} {d : Direction} {w : State}

theorem tallies_unlinkWalked (h : w.Fit) (s : Side) (e : ElementId) :
    wp (unlinkWalked rules s e) (fun _ w' => Tallies w w' ∧ w'.pairs = w.pairs)
      (fun _ => Tallies w) w := by
  rw [unlinkWalked, wp_bind, wp_graph]
  refine wp_forM_keep (I := fun w' => Tallies w w' ∧ w'.pairs = w.pairs) ?_ ⟨.refl h, rfl⟩
  rintro ⟨owner, role⟩ _ w₁ ⟨ht, hp⟩
  rw [wp_bind, wp_pairs, wp_ite]
  split
  · exact wp_mono (tallies_unlink ht.fit s owner role e)
      (fun _ _ h' => ⟨ht.trans h'.1, h'.2.trans hp⟩) fun _ _ h' => ht.trans h'
  · exact ⟨ht, hp⟩

theorem tallies_releaseLost (h : w.Fit) {c : Correspondence} (hc : c ∈ w.pairs.entries)
    (s : Side) :
    wp (releaseLost rules d c s) (fun _ w' => Tallies w w' ∧ w'.pairs = w.pairs.remove c.id)
      (fun _ => Tallies w) w := by
  have release {w₁ : State} (ht : Tallies w w₁) (hp : w₁.pairs = w.pairs) :
      wp (releasePair c.id) (fun _ w' => Tallies w w' ∧ w'.pairs = w.pairs.remove c.id)
        (fun _ => Tallies w) w₁ := by
    rw [wp_releasePair]
    exact ⟨ht.trans (tallies_releasePair ht.fit (hp ▸ hc)), by rw [hp]⟩
  rw [releaseLost, wp_bind, wp_graph, wp_ite]
  split
  · rw [wp_bind]
    exact wp_imp (tallies_unlinkWalked h _ _) fun _ _ h' => release h'.1 h'.2
  · exact release (.refl h) rfl

/-- A lost pair is recorded until it is dropped, so each counts once. -/
theorem accounts_releaseAllLost (rules : RuleSet) (d : Direction) :
    Accounts (releaseAllLost rules d) := by
  intro w h
  rw [releaseAllLost, wp_bind, wp_get]
  have hnodup : (w.lost.map Prod.fst).Nodup := by
    rw [State.fst_lost]
    exact (h.listed.entries_nodup.filter _).filter _
  have hentry : ∀ c ∈ w.lost.map Prod.fst, c ∈ w.pairs.entries := by
    intro c hc
    rw [State.fst_lost] at hc
    exact (List.mem_filter.mp (List.mem_filter.mp hc).1).1
  refine wp_imp (wp_forM_worked (I := fun pre w' => Tallies w w' ∧
    ∀ c ∈ w.lost.map Prod.fst, c ∉ pre.map Prod.fst → c ∈ w'.pairs.entries) ?_
    ⟨.refl h, fun c hc _ => hentry c hc⟩) fun _ _ h' => h'.1
  rintro pre ⟨c, s⟩ post hsplit w₁ ⟨ht, hleft⟩
  replace hsplit : w.lost = pre ++ (c, s) :: post := hsplit
  have hc : c ∈ w.lost.map Prod.fst := by simp [hsplit]
  have hnew : c ∉ pre.map Prod.fst := by
    rw [hsplit, List.map_append, List.nodup_append] at hnodup
    exact fun hin => hnodup.2.2 c hin c List.mem_cons_self rfl
  refine wp_mono (tallies_releaseLost ht.fit (hleft c hc hnew) s)
    (fun _ w₂ h₂ => ⟨ht.trans h₂.1, fun c' hc' hn => ?_⟩) fun _ _ h₂ => ht.trans h₂
  rw [List.map_append, List.mem_append, not_or] at hn
  rw [h₂.2]
  refine List.mem_filter.mpr ⟨hleft c' hc' hn.1, ?_⟩
  rw [decide_eq_true_eq]
  intro hid
  exact hn.2 (by simp [h.listed.eq_of_id (hentry c' hc') (hentry c hc) hid])

/-- The pair of the roots is there or is recorded now; no other pair becomes it. -/
theorem tallies_pairRoots {k : Scheme} (h : k.Consistent w.graphs w.pairs) (d : Direction) :
    wp (pairRoots k.rules d k.rootRule) (fun _ => Tallies w) (fun _ => Tallies w) w := by
  have hfit : w.Fit := ⟨h.sound, h.listed⟩
  refine wp_pairRoots h.sound (fun _ => .refl hfit) (fun _ _ _ _ => .refl hfit) fun r hr hk => ?_
  rw [wp_onPairs]
  rcases h.anchor_cases d with ⟨c, _, _, he⟩ | ⟨_, ⟨conflict, he⟩ | ⟨_, he⟩⟩
  · rw [he]
    exact .refl hfit
  · rw [he]
    exact .refl hfit
  · rw [he]
    refine .rewrite hfit (h.listed.append rfl) ?_ ⟨rfl, rfl, rfl⟩ ?_
    · simp only [List.length_append, List.length_singleton]
      omega
    · simp only [Report.effects]
      omega

/-- A pass counts what it does. -/
theorem tallies_syncRoots {k : Scheme} (h : k.Consistent w.graphs w.pairs) (d : Direction) :
    wp (syncRoots k.rules d k.rootRule) (fun _ => Tallies w) (fun _ => Tallies w) w := by
  rw [syncRoots_eq, syncRootsBy, wp_bind]
  refine wp_imp (tallies_pairRoots h d) fun p w₁ ht => ?_
  have hrest : Accounts (do
      releaseAllLost k.rules d
      start k.rules d p.1 p.2.1 p.2.2) :=
        .bind (accounts_releaseAllLost _ _) fun _ => accounts_start _ _ _ _ _
  exact hrest.after ht

end Release

end Walk

end GraphSync
