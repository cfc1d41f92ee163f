import GraphSync.Proofs.Session.Reachable
import GraphSync.Proofs.Walk.Whole

namespace GraphSync

instance decidableEqExcept {ε α : Type} [DecidableEq ε] [DecidableEq α] :
    DecidableEq (Except ε α)
  | .ok a, .ok b => decidable_of_iff (a = b) ⟨fun h => h ▸ rfl, Except.ok.inj⟩
  | .error e, .error e' => decidable_of_iff (e = e') ⟨fun h => h ▸ rfl, Except.error.inj⟩
  | .ok _, .error _ => .isFalse fun h => by cases h
  | .error _, .ok _ => .isFalse fun h => by cases h

theorem exists_ok {ε α : Type} {r : Except ε α} (h : r.toOption.isSome = true) :
    ∃ a, r = .ok a := by
  cases r with
  | ok a => exact ⟨a, rfl⟩
  | error e => cases h

namespace Session

open Walk

variable {s : Session} {k : OneWay} {p : Pass}

/-- The walk of a pass: how it ends, and the state that it leaves. -/
def pass (s : Session) : Except Error Unit × State :=
  exec (syncRoots s.rules s.options.direction s.rootRule) s.collect.walkState

theorem synchronize_eq (s : Session) :
    s.synchronize = (s.pass.1.map fun _ => s.pass.2.report, s.collect.adopt s.pass.2) := rfl

theorem synchronize_ok_iff (s : Session) :
    (∃ report, s.synchronize.1 = .ok report) ↔ s.pass.1 = .ok () := by
  rw [synchronize_eq]
  rcases s.pass with ⟨_ | _, _⟩ <;> simp [Except.map]

theorem pass_of_synchronize {report : Report} (h : s.synchronize.1 = .ok report) :
    s.pass.1 = .ok () ∧ s.pass.2.report = report := by
  rw [synchronize_eq] at h
  rcases hp : s.pass with ⟨_ | _, w⟩
  · rw [hp] at h
    cases h
  · rw [hp] at h
    exact ⟨rfl, Except.ok.inj h⟩

theorem error_of_synchronize {e : Error} (h : s.synchronize.1 = .error e) :
    s.pass.1 = .error e := by
  rw [synchronize_eq] at h
  rcases hp : s.pass with ⟨_ | _, w⟩
  · rw [hp] at h
    exact congrArg _ (Except.error.inj h)
  · rw [hp] at h
    cases h

/-- A pass whose walk ends well. -/
theorem pass_of_wp {Q : State → Prop}
    (h : wp (syncRoots s.rules s.options.direction s.rootRule) (fun _ => Q) (fun _ _ => False)
      s.collect.walkState) : s.pass.1 = .ok () ∧ Q s.pass.2 := by
  obtain ⟨hok, herror⟩ := wp_iff.mp h
  cases hp : s.pass.1 with
  | ok u => exact ⟨rfl, hok u hp⟩
  | error e => exact (herror e hp).elim

/-- Collecting the journals leaves what the graphs hold. -/
theorem collect_graphs (s : Session) (side : Side) :
    s.collect.graphs.on side = (s.graphs.on side).takeChanges.2 := by
  cases side <;> rfl

theorem adopt_graphs (s : Session) (w : State) (side : Side) :
    (s.adopt w).graphs.on side = (w.graphs.on side).takeChanges.2 := by
  cases side <;> rfl

@[simp] theorem journal_adopt (s : Session) (w : State) (side : Side) :
    ((s.adopt w).graphs.on side).journal = [] := by
  cases side <;> rfl

theorem members_collect (s : Session) (side : Side) :
    (s.collect.graphs.on side).members = (s.graphs.on side).members := by
  rw [collect_graphs]
  rfl

theorem reading_collect (s : Session) (side : Side) :
    (s.collect.graphs.on side).reading = (s.graphs.on side).reading := by
  rw [collect_graphs]
  rfl

theorem kind?_collect (s : Session) (side : Side) :
    (s.collect.graphs.on side).kind? = (s.graphs.on side).kind? := by
  rw [collect_graphs]
  rfl

theorem members_adopt (s : Session) (w : State) (side : Side) :
    ((s.adopt w).graphs.on side).members = (w.graphs.on side).members := by
  rw [adopt_graphs]
  rfl

theorem pairs_synchronize (s : Session) : s.synchronize.2.pairs = s.pass.2.pairs := rfl

theorem members_synchronize (s : Session) (side : Side) :
    (s.synchronize.2.graphs.on side).members = (s.pass.2.graphs.on side).members := by
  cases side <;> rfl

theorem reading_synchronize (s : Session) (side : Side) :
    (s.synchronize.2.graphs.on side).reading = (s.pass.2.graphs.on side).reading := by
  cases side <;> rfl

theorem kind?_synchronize (s : Session) (side : Side) :
    (s.synchronize.2.graphs.on side).kind? = (s.pass.2.graphs.on side).kind? := by
  cases side <;> rfl

/-- Nothing was recorded since the journals were emptied. -/
def Quiet (s : Session) : Prop := ∀ side, (s.graphs.on side).journal = []

theorem Quiet.takeChanges (h : s.Quiet) (side : Side) :
    (s.graphs.on side).takeChanges = ([], s.graphs.on side) := by
  rw [Graph.takeChanges, h side, ← h side]

theorem Quiet.collect (h : s.Quiet) : s.collect = s := by
  have hone (side : Side) : s.collectFrom side = s := by
    simp only [collectFrom, h.takeChanges, Queue.pushAll, List.foldl_nil, Sided.put_on, ite_self]
  rw [Session.collect, Side.all, List.foldl_cons, List.foldl_cons, List.foldl_nil, hone, hone]

/-- A walk that keeps the graphs and the pairs leaves no trace. -/
theorem Quiet.synchronize (h : s.Quiet) {outcome : Except Error Unit} {w : State}
    (hw : s.pass = (outcome, w)) (hg : w.graphs = s.graphs) (hp : w.pairs = s.pairs) :
    s.synchronize = (outcome.map fun _ => w.report, s) := by
  have hgraphs : s.graphs.map (fun g => g.takeChanges.2) = s.graphs := by
    refine Sided.ext ?_ ?_
    · exact congrArg Prod.snd (h.takeChanges .left)
    · exact congrArg Prod.snd (h.takeChanges .right)
  rw [synchronize_eq, hw, h.collect, adopt, hg, hp, hgraphs]

theorem quiet_synchronize (s : Session) : s.synchronize.2.Quiet := journal_adopt s.collect s.pass.2

/-- The pass that a session is about to run, with what is known of its start. -/
def nextPass (s : Session) (source : Side) (forced : Bool) (first blank : Prop)
    (h : blank → first) (hroles : s.rules.UniqueRoles source.other) : Pass where
  toOneWay := s.oneWay source forced
  base := (s.graphs.on source).takeChanges.2
  first := first
  blank := blank
  intact := True
  fresh := fun _ => first
  first_of_blank := h
  intact_of_first := fun _ => trivial
  fresh_of_first := fun h _ => h
  unique_roles := hroles

/-- A pass of a session that follows one side, as it is known in advance. -/
theorem pass_spec (h : s.Directed p.toOneWay)
    (hbase : p.base = (s.graphs.on p.source).takeChanges.2) (hintact : p.intact)
    (hfresh : ∀ id, p.fresh id → p.first) (hfirst : p.first → s.pairs.entries = [])
    (hblank : p.blank →
      (∀ role, (s.graphs.on p.target).members (s.graphs.on p.target).root role = []) ∧
      ∀ name, (s.graphs.on p.target).reading (s.graphs.on p.target).root name = .unset) :
    (s.pass.1 = .ok () → ∃ done g, p.Passed s.pass.2 done g) ∧
      (∀ e, s.pass.1 = .error e → (p.RootsFit s.graphs → p.first → p.Refusal p.base e) ∧
        (s.pass.2 = s.collect.walkState ∨ ∃ inner done g,
          p.Broken s.pass.2 inner done g e)) := by
  have starts : p.Starts s.collect.walkState := {
    coherent := h.collect.coherent
    source := by
      rw [hbase]
      exact collect_graphs s p.source
    visited := rfl
    created := rfl
    first := hfirst
    intact := hintact
    fresh := hfresh
    bare := fun hb => by
      have hg : s.collect.walkState.graphs.on p.target = (s.graphs.on p.target).takeChanges.2 :=
        collect_graphs s p.target
      rw [hg]
      exact hblank hb }
  have hspec := Pass.syncRoots_spec starts
  have hpass : s.pass = exec (syncRoots p.rules p.direction p.rootRule) s.collect.walkState := by
    rw [pass, h.rules, h.direction, h.rootRule]
  obtain ⟨hok, herror⟩ := wp_iff.mp hspec
  rw [hpass]
  refine ⟨fun he => hok () he, fun e he =>
    ⟨fun hfit hf => (herror e he).1 ?_ hf, (herror e he).2⟩⟩
  obtain ⟨r, hr, hk⟩ := hfit
  refine ⟨r, hr, ?_⟩
  intro side
  have hg : s.collect.walkState.graphs.on side = (s.graphs.on side).takeChanges.2 :=
    collect_graphs s side
  rw [hg]
  exact hk side

end Session

end GraphSync
