import GraphSync.Proofs.Walk.Members

namespace GraphSync.Pass

open Walk

variable {p : Pass} {w w' w₀ : State} {f g : Frame} {stack done done' done₀ : List Frame}
  {child : Child} {m : ElementId} {e : Error}

/-- The rule of `f` has come to a member of a child's role; its bindings, the roles before that one
and the members before that one are done. -/
structure Comes (p : Pass) (w : State) (done : List Frame) (f : Frame) (child : Child)
    (m : ElementId) : Prop where
  bindings : (f.rule.bindings.map (·.attributes.on p.target)).Nodup →
    ∀ bi ∈ f.rule.numbered, p.BindingDone w f bi.1 bi.2
  roles : ∃ pre post, f.rule.children = pre ++ child :: post ∧
    ∀ c ∈ pre, p.RoleDone w done f c
  members : ∃ earlier later, p.followed f child = earlier ++ m :: later ∧
    ∀ m' ∈ earlier, ∃ y, p.Met w done f child m' y

/-- Applied below the frames of `stack`, the rule of a frame fails with `e`: it is being applied
already, it comes to a member that neither has a counterpart nor a rule for a new one, or the rule
of that member's pair fails. -/
inductive Halts (p : Pass) (w : State) (done : List Frame) :
    List Frame → Frame → Error → Prop where
  | cycle {stack : List Frame} {f : Frame} (again : f.id ∈ stack.map Frame.id) :
    Halts p w done stack f (.rule (.invalid f.rule.name (.selfApplication f.pair)))
  | noRule {stack : List Frame} {f : Frame} {child : Child} {m : ElementId} {kind : TypeName}
    (new : f.id ∉ (stack ++ done).map Frame.id) (comes : p.Comes w done f child m)
    (unpaired : w.pairs.counterpart? p.rules child p.source (w.graphs.on p.target)
      (p.mirrored w f child) m = none)
    (known : p.base.kind? m = some kind)
    (unresolved : p.rules.ruleFor? (p.source.arrange kind (child.types.on p.target)) = none) :
    Halts p w done stack f (.rule (.noRule (p.source.arrange kind (child.types.on p.target))))
  | deeper {stack : List Frame} {f g : Frame} {child : Child} {m : ElementId}
    {c : Correspondence} {e : Error} (new : f.id ∉ (stack ++ done).map Frame.id)
    (comes : p.Comes w done f child m) (chosen : p.Chosen w f child m c) (id : c.id = g.id)
    (pair : c.elements = g.pair) (rule : p.rules.rule? c.rule = some g.rule)
    (inner : Halts p w done (f :: stack) g e) : Halts p w done stack f e

/-- Below the frames of `stack`, the application of a rule to `f` was broken off. -/
structure Halted (p : Pass) (stack done : List Frame) (w : State) (f : Frame) (e : Error)
    (w' : State) : Prop where
  fails : p.Fails e w'
  left : ∃ inner done', done ⊆ done' ∧ p.Steady (inner ++ stack) done' w' ∧
    p.Moves (stack ++ done) w w' ∧ p.Halts w' done' stack f e

/-- The application was broken off in the role of a child, whose members were being linked since
`w`. -/
structure Breaks (p : Pass) (stack done₀ : List Frame) (w₀ : State) (f : Frame)
    (done : List Frame) (child : Child) (w : State) (e : Error) (w' : State) : Prop where
  fails : p.Fails e w'
  left : ∃ inner done', done ⊆ done' ∧ p.Steady (inner ++ f :: stack) done' w' ∧
    p.Moves (stack ++ done₀) w₀ w' ∧
    p.Shifts f (child.roles.on p.target) w w' ∧ ∃ earlier m later,
      p.followed f child = earlier ++ m :: later ∧
      (∀ m' ∈ earlier, ∃ y, p.Met w' done' f child m' y) ∧
        (p.Comes w' done' f child m → p.Halts w' done' stack f e)

theorem Breaks.after {w₁ : State} {done₁ : List Frame}
    (h : p.Breaks stack done₀ w₀ f done child w e w')
    (hs : p.Shifts f (child.roles.on p.target) w₁ w) (hd : done₁ ⊆ done) :
    p.Breaks stack done₀ w₀ f done₁ child w₁ e w' := by
  obtain ⟨inner, done', hd', hsteady, hm, hsh, hleft⟩ := h.left
  exact ⟨h.fails, inner, done', List.Subset.trans hd hd', hsteady, hm, hs.trans hsh, hleft⟩

/-- A frame on which rules are still being applied is neither below itself nor done. -/
theorem Steady.new {inner : List Frame} (h : p.Steady (inner ++ f :: stack) done w) :
    f.id ∉ (stack ++ done).map Frame.id := by
  have hn := h.ids_nodup
  rw [List.append_assoc, List.map_append, List.cons_append, List.map_cons] at hn
  exact (List.nodup_cons.mp (List.nodup_append.mp hn).2.1).1

end GraphSync.Pass
