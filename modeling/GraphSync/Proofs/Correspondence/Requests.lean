import GraphSync.Proofs.Correspondence.Calls

namespace GraphSync

/-- The pair has the rule and the left element of the one asked for, or the rule and the right
element, or both elements. -/
def Correspondence.Shares (c : Correspondence) (rule : RuleName) (pair : Sided ElementId) : Prop :=
  (c.rule = rule ∧ c.element .left = pair.left) ∨
    (c.rule = rule ∧ c.element .right = pair.right) ∨ c.elements = pair

namespace Correspondences

variable {t : Correspondences} {c : Correspondence} {rule : RuleName} {pair : Sided ElementId}
  {d : Direction}

theorem shares_of_rival? (h : t.rival? rule pair = some c) : c.Shares rule pair := by
  rcases Option.or_eq_some_iff.mp h with h | ⟨_, h⟩
  · exact .inl (of_lookup?_eq_some h).2
  · rcases Option.or_eq_some_iff.mp h with h | ⟨_, h⟩
    · exact .inr (.inl (of_lookup?_eq_some h).2)
    · exact .inr (.inr (by simpa using List.find?_some h))

/-- The search finds a rival whenever some recorded pair shares a key. -/
theorem rival?_eq_none_iff : t.rival? rule pair = none ↔ ∀ c ∈ t.entries,
    ¬ c.Shares rule pair := by
  constructor
  · rintro h c hc (⟨hr, he⟩ | ⟨hr, he⟩ | he)
    · exact rival?_eq_none h .left c hc hr he
    · exact rival?_eq_none h .right c hc hr he
    · exact pairing?_eq_none h c hc he
  · intro h
    cases hr : t.rival? rule pair with
    | none => rfl
    | some c => exact absurd (shares_of_rival? hr) (h c (mem_of_rival? hr))

/-- The pair is handed out exactly if it is recorded. -/
theorem Bijective.obtain?_recorded_iff (h : t.Bijective) {id : CorrespondenceId}
    {t' : Correspondences} :
    t.obtain? rule pair d = .ok (⟨id, false⟩, t') ↔
      (∃ c ∈ t.entries, c.Is rule pair ∧ c.id = id) ∧ t' = t := by
  constructor
  · intro he
    rcases t.obtain?_cases rule pair d with ⟨c, hr, hi, heq⟩ | ⟨_, _, _, heq⟩ | ⟨_, heq⟩ <;>
      cases he.symm.trans heq
    exact ⟨⟨c, mem_of_rival? hr, hi, rfl⟩, rfl⟩
  · rintro ⟨⟨c, hc, ⟨rfl, rfl⟩, rfl⟩, rfl⟩
    exact Keyed.obtain?_recorded (h.key_inj .left) hc d

/-- The pair is recorded, as the last one, exactly if no pair shares a key with it. -/
theorem obtain?_created_iff {id : CorrespondenceId} {t' : Correspondences} :
    t.obtain? rule pair d = .ok (⟨id, true⟩, t') ↔
      (id = ⟨t.next⟩ ∧ ∀ c ∈ t.entries, ¬ c.Shares rule pair) ∧
        t' = { entries := t.entries ++ [t.newEntry rule pair d], next := t.next + 1 } := by
  rw [← rival?_eq_none_iff]
  rcases t.obtain?_cases rule pair d with ⟨c, hr, _, heq⟩ | ⟨c, hr, _, heq⟩ | ⟨hr, heq⟩ <;>
    rw [heq, hr]
  · simp
  · simp
  · simp only [Except.ok.injEq, Prod.mk.injEq, Obtained.mk.injEq, and_true]
    exact and_congr eq_comm eq_comm

/-- Everything else is refused, with the elements of a pair that shares a key. -/
theorem obtain?_refused {c : Correspondence} (hc : c ∈ t.entries) (hs : c.Shares rule pair)
    (hn : ∀ c ∈ t.entries, ¬ c.Is rule pair) :
    ∃ a ∈ t.entries, a.Shares rule pair ∧
      t.obtain? rule pair d = .error ⟨rule, pair, a.elements⟩ := by
  rcases t.obtain?_cases rule pair d with ⟨a, hr, hi, _⟩ | ⟨a, hr, _, heq⟩ | ⟨hr, _⟩
  · exact absurd hi (hn a (mem_of_rival? hr))
  · exact ⟨a, mem_of_rival? hr, shares_of_rival? hr, heq⟩
  · exact absurd hs (rival?_eq_none_iff.mp hr c hc)

theorem Bijective.anchor?_eq (h : t.Bijective) (hc : c ∈ t.entries) (ha : c.isAnchor = true) :
    t.anchor? = some c := by
  cases hf : t.anchor? with
  | none =>
    have hno := List.find?_eq_none.mp hf c hc
    exact absurd ha hno
  | some a =>
    rw [h.anchor_unique a (List.mem_of_find?_eq_some hf) c hc
      (by simpa using List.find?_some hf) ha]

/-- While no pair is that of the roots, its request is answered like that for any other pair, which
is then marked. -/
theorem call_root_eq (hn : ∀ c ∈ t.entries, c.isAnchor = false) (rule : RuleName)
    (pair : Sided ElementId) (d : Direction) :
    (t.call (.root rule pair d)).1 = (t.call (.pair rule pair d)).1 ∧
      ∀ o, (t.call (.root rule pair d)).1 = .obtained o →
        (t.call (.root rule pair d)).2 = (t.call (.pair rule pair d)).2.modify o.id
          ({ · with isAnchor := true }) := by
  have hnone : t.anchor? = none := List.find?_eq_none.mpr fun c hc => by simp [hn c hc]
  simp only [call, anchor_eq, hnone]
  cases t.obtain? rule pair d with
  | error e => exact ⟨rfl, by simp [Except.map, answer]⟩
  | ok r =>
    refine ⟨rfl, fun o ho => ?_⟩
    obtain rfl : r.1 = o := Answer.obtained.inj ho
    rfl

theorem answer_obtained_iff {α : Type} {t : α} {r : Except PairConflict (Obtained × α)}
    {o : Obtained} : (answer t r).1 = .obtained o ↔ ∃ t', r = .ok (o, t') := by
  rcases r with e | ⟨o', t'⟩ <;> simp [answer]

namespace Indexed

variable {x : Indexed}

/-- How a request for a pair is decided, and what it leaves. -/
structure DecidesPair (x : Indexed) (rule : RuleName) (pair : Sided ElementId)
    (d : Direction) : Prop where
  recorded_iff : ∀ id, (x.call (.pair rule pair d)).1 = .obtained ⟨id, false⟩ ↔
    ∃ c ∈ x.live, c.Is rule pair ∧ c.id = id
  created_iff : ∀ id, (x.call (.pair rule pair d)).1 = .obtained ⟨id, true⟩ ↔
    id = ⟨x.slots.length⟩ ∧ ∀ c ∈ x.live, ¬ c.Shares rule pair
  conflict : (∀ c ∈ x.live, ¬ c.Is rule pair) → ∀ c ∈ x.live, c.Shares rule pair →
    ∃ a ∈ x.live, a.Shares rule pair ∧
      (x.call (.pair rule pair d)).1 = .refused ⟨rule, pair, a.elements⟩
  unchanged : ∀ id, (x.call (.pair rule pair d)).1 = .obtained ⟨id, false⟩ →
    (x.call (.pair rule pair d)).2 = x
  grown : ∀ id, (x.call (.pair rule pair d)).1 = .obtained ⟨id, true⟩ →
    (x.call (.pair rule pair d)).2.live = x.live ++ [{ id, rule, elements := pair, createdIn := d }]

/-- How a request for the pair of the roots is decided: against that pair if there is one, and else
like any other request, with the pair that is handed out marked. -/
structure DecidesRoot (x : Indexed) (rule : RuleName) (pair : Sided ElementId)
    (d : Direction) : Prop where
  anchored : ∀ a ∈ x.live, a.isAnchor = true → x.call (.root rule pair d) =
    (if a.Is rule pair then .obtained ⟨a.id, false⟩
      else .refused ⟨rule, pair, a.elements⟩, x)
  free : (∀ c ∈ x.live, c.isAnchor = false) →
    (x.call (.root rule pair d)).1 = (x.call (.pair rule pair d)).1
  marked : (∀ c ∈ x.live, c.isAnchor = false) → ∀ o,
    (x.call (.root rule pair d)).1 = .obtained o → (x.call (.root rule pair d)).2.live =
      (x.call (.pair rule pair d)).2.live.map fun c => if c.id = o.id then
        { c with isAnchor := true } else c

/-- A pair that was recorded before is handed out without any change. -/
theorem eq_of_obtain? {x' : Indexed} {id : CorrespondenceId}
    (h : x.obtain? rule pair d = .ok (⟨id, false⟩, x')) : x' = x := by
  unfold Indexed.obtain? at h
  dsimp only at h
  split at h
  · split at h <;> cases h
    rfl
  · cases h

/-- What is refused changes nothing. -/
theorem call_refused {call : Call} {e : PairConflict} (h : (x.call call).1 = .refused e) :
    (x.call call).2 = x := by
  have unchanged {r : Except PairConflict (Obtained × Indexed)}
      (hr : (answer x r).1 = .refused e) : (answer x r).2 = x := by
    cases r with
    | ok r => cases hr
    | error e => rfl
  cases call with
  | pair rule pair d => exact unchanged h
  | root rule pair d => exact unchanged h
  | drop id => cases h
  | release s e => cases h
  | remember id binding values => cases h

theorem Represents.decidesPair (h : x.Represents t) (hb : t.Bijective) (rule : RuleName)
    (pair : Sided ElementId) (d : Direction) : x.DecidesPair rule pair d := by
  obtain ⟨hanswer, hx⟩ := h.call hb (.pair rule pair d)
  refine ⟨fun id => ?_, fun id => ?_, fun hn c hc hs => ?_, fun id hid => ?_, fun id hid => ?_⟩
  · rw [hanswer, h.live, Correspondences.call, answer_obtained_iff]
    simp only [hb.obtain?_recorded_iff, exists_and_left, exists_eq, and_true]
  · rw [hanswer, h.live, h.length_slots, Correspondences.call, answer_obtained_iff]
    simp only [obtain?_created_iff, exists_and_left, exists_eq, and_true]
  · rw [h.live] at hc hn ⊢
    obtain ⟨a, ha, hshared, he⟩ := obtain?_refused (d := d) hc hs hn
    exact ⟨a, ha, hshared, by rw [hanswer, Correspondences.call, he]; rfl⟩
  · obtain ⟨x', he⟩ := answer_obtained_iff.mp hid
    rw [Indexed.call, he]
    exact eq_of_obtain? he
  · rw [hanswer] at hid
    obtain ⟨t', he⟩ := answer_obtained_iff.mp hid
    obtain ⟨⟨rfl, _⟩, rfl⟩ := obtain?_created_iff.mp he
    rw [hx.live, h.live, Correspondences.call, he]
    rfl

theorem Represents.decidesRoot (h : x.Represents t) (hb : t.Bijective) (rule : RuleName)
    (pair : Sided ElementId) (d : Direction) : x.DecidesRoot rule pair d := by
  obtain ⟨hroot, hx⟩ := h.call hb (.root rule pair d)
  obtain ⟨hpair, hx'⟩ := h.call hb (.pair rule pair d)
  refine ⟨fun a ha hmark => ?_, fun hn => ?_, fun hn o ho => ?_⟩
  · rw [h.live] at ha
    simp only [Indexed.call, Indexed.anchor, h.anchor?_eq hb.listed, hb.anchor?_eq ha hmark]
    split <;> rfl
  · rw [h.live] at hn
    rw [hroot, hpair]
    exact (call_root_eq hn rule pair d).1
  · rw [h.live] at hn
    rw [hroot] at ho
    rw [hx.live, hx'.live, (call_root_eq hn rule pair d).2 o ho]
    rfl

/-- The handle that is handed out is below the next one. -/
theorem Represents.obtained_lt (h : x.Represents t) (hb : t.Bijective) {call : Call} {o : Obtained}
    (ho : (x.call call).1 = .obtained o) : o.id.index < (t.call call).2.next := by
  have below {rule : RuleName} {pair : Sided ElementId} {d : Direction}
      (hc : call = .pair rule pair d ∨ call = .root rule pair d) :
      o.id.index < (t.call call).2.next := by
    obtain ⟨p, hp, _⟩ := h.get?_obtained hb hc ho
    have hl := (hb.call call).listed
    rw [(h.call hb call).2.get?_eq hl] at hp
    by_contra hle
    cases hp.symm.trans (hl.get?_of_le (Nat.le_of_not_lt hle))
  cases call with
  | pair rule pair d => exact below (.inl rfl)
  | root rule pair d => exact below (.inr rfl)
  | drop id => cases ho
  | release s e => cases ho
  | remember id binding values => cases ho

end Indexed

/-- After any sequence of calls, refused ones included: a pair that is asked for is handed out
exactly if it is recorded under that rule, with the direction and the values it was recorded with;
it is recorded under a fresh handle exactly if no recorded pair shares a key with it; and else the
request is refused, with the elements of a recorded pair that shares one. While the roots are
paired, only their pair is handed out as that of the roots. A refusal changes nothing. -/
theorem requests_callAll (calls : List Call) :
    let x := Indexed.callAll {} calls
    (∀ rule pair d, x.DecidesPair rule pair d) ∧
      (∀ rule pair d, x.DecidesRoot rule pair d) ∧
      (∀ call e, (x.call call).1 = .refused e → (x.call call).2 = x) ∧
      ∀ earlier call later o, calls = earlier ++ call :: later →
        ((Indexed.callAll {} earlier).call call).1 = .obtained o →
          o.id.index < x.slots.length := by
  intro x
  obtain ⟨hx, hb⟩ := Indexed.Represents.empty.callAll .empty calls
  refine ⟨hx.decidesPair hb, hx.decidesRoot hb, fun _ _ => Indexed.call_refused, ?_⟩
  rintro earlier call later o rfl ho
  obtain ⟨hy, hb'⟩ := Indexed.Represents.empty.callAll .empty earlier
  have hsplit : callAll {}
      (earlier ++ call :: later) = (((callAll {} earlier).call call).2).callAll later :=
    List.foldl_append
  rw [hx.length_slots, hsplit]
  exact Nat.lt_of_lt_of_le (hy.obtained_lt hb' ho) (Ages.callAll _ later).next_le

end Correspondences

end GraphSync
