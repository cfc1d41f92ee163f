import GraphSync.Proofs.Json.Number
import GraphSync.Proofs.Json.Quoted

namespace GraphSync.Json

/-- Every integer has 64 bits, and every float has a property. -/
inductive Numbers (p : Binary64 → Prop) : Json → Prop where
  | null : Numbers p null
  | bool (b : Bool) : Numbers p (bool b)
  | int {n : Int} (h : Fits64 n) : Numbers p (int n)
  | float {x : Binary64} (h : p x) : Numbers p (float x)
  | string (s : String) : Numbers p (string s)
  | array {items : List Json} (h : ∀ j ∈ items, Numbers p j) : Numbers p (array items)
  | object {members : List (String × Json)} (h : ∀ m ∈ members, Numbers p m.2) :
      Numbers p (object members)
  | unreadable : Numbers p unreadable

theorem skipBlanks_cons {c : Char} (h : isBlank c = false) (cs : List Char) :
    skipBlanks (c :: cs) = c :: cs := by
  simp [skipBlanks, h]

theorem readValue?_number {cs r : List Char} {w : NumberWord} (h : readNumber? cs = some (w, r))
    (fuel : Nat) : readValue? (fuel + 1) cs = some (w.toJson, r) := by
  obtain ⟨c, cs, rfl, hc⟩ := exists_head_of_readNumber? h
  have hne (d : Char) (hd : d ≠ '-' ∧ Text.isDecimal d = false) : c ≠ d := by
    rintro rfl
    exact hc.elim hd.1 (by simp [hd.2])
  have hblank : isBlank c = false := by
    simp [isBlank, hne ' ' (by decide), hne '\t' (by decide), hne '\n' (by decide),
      hne '\r' (by decide)]
  rw [readValue?, skipBlanks_cons hblank]
  simp [h, hne '[' (by decide), hne '\x7b' (by decide), hne '"' (by decide), hne 'n' (by decide),
    hne 't' (by decide), hne 'f' (by decide)]

/-- The text of a document, and whatever may follow it, is read as that document and the rest. Twice
the length of the text is fuel enough: one step for each value, and one for the list that it stands
in. -/
def ReadsBack (j : Json) : Prop :=
  ∀ fuel rest, 2 * j.render.toList.length < fuel → Stops rest →
    readValue? fuel (j.render.toList ++ rest) = some (j, rest)

/-- A value without nesting is read in one step. -/
theorem readsBack_of_step {j : Json}
    (h : ∀ fuel rest, Stops rest →
      readValue? (fuel + 1) (j.render.toList ++ rest) = some (j, rest)) : ReadsBack j
  | 0, _, hfuel, _ => absurd hfuel (Nat.not_lt_zero _)
  | fuel + 1, rest, _, hrest => h fuel rest hrest

theorem readsBack_null : ReadsBack null := readsBack_of_step fun _ _ _ => rfl

theorem readsBack_bool (b : Bool) : ReadsBack (bool b) := by
  cases b <;> exact readsBack_of_step fun _ _ _ => rfl

theorem readsBack_of_number {j : Json} {w : NumberWord}
    (h : readNumber? j.render.toList = some (w, [])) (hw : w.toJson = j) : ReadsBack j :=
  readsBack_of_step fun fuel _ hrest => hw ▸ readValue?_number (readNumber?_append hrest h) fuel

theorem readsBack_int {n : Int} (h : Fits64 n) : ReadsBack (int n) :=
  readsBack_of_number (readNumber?_toString n) (NumberWord.toJson_ofInt h)

theorem readsBack_float {x : Binary64} (h : Exact x) : ReadsBack (float x) := by
  obtain ⟨w, hread, hw⟩ := h
  exact readsBack_of_number hread hw

theorem toList_quote (s : String) (rest : List Char) :
    (quote s).toList ++ rest = '"' :: (s.toList.flatMap escape ++ '"' :: rest) := by
  simp [quote]

theorem readsBack_string (s : String) : ReadsBack (string s) :=
  readsBack_of_step fun fuel rest _ => by
    rw [render, toList_quote, readValue?, skipBlanks_cons rfl]
    simp [readText?_quote]

theorem skipBlanks_skipBlanks (cs : List Char) : skipBlanks (skipBlanks cs) = skipBlanks cs := by
  induction cs with
  | nil => rfl
  | cons c cs ih =>
    cases hc : isBlank c
    · rw [skipBlanks_cons hc, skipBlanks_cons hc]
    · simpa [skipBlanks, hc] using ih

theorem readValue?_skipBlanks (fuel : Nat) (cs : List Char) :
    readValue? fuel (skipBlanks cs) = readValue? fuel cs := by
  cases fuel <;> simp only [readValue?, skipBlanks_skipBlanks]

theorem readItems?_skipBlanks (fuel : Nat) (cs : List Char) :
    readItems? fuel (skipBlanks cs) = readItems? fuel cs := by
  cases fuel <;> simp only [readItems?, readValue?_skipBlanks]

theorem readMembers?_skipBlanks (fuel : Nat) (cs : List Char) :
    readMembers? fuel (skipBlanks cs) = readMembers? fuel cs := by
  cases fuel <;> simp only [readMembers?, skipBlanks_skipBlanks]

theorem readItems?_last {cs r : List Char} {j : Json} {fuel : Nat}
    (h : readValue? fuel cs = some (j, ']' :: r)) : readItems? (fuel + 1) cs = some ([j], r) := by
  simp only [readItems?, h, bind, Option.bind_some, skipBlanks_cons (c := ']') rfl]
  rfl

theorem readItems?_more {cs cs' r : List Char} {j : Json} {items : List Json} {fuel : Nat}
    (h : readValue? fuel cs = some (j, ',' :: cs'))
    (hitems : readItems? fuel cs' = some (items, r)) :
    readItems? (fuel + 1) cs = some (j :: items, r) := by
  simp only [readItems?, h, bind, Option.bind_some, skipBlanks_cons (c := ',') rfl, hitems]
  rfl

theorem readMembers?_last {cs r : List Char} {k : String} {j : Json} {fuel : Nat}
    (h : readValue? fuel cs = some (j, '\x7d' :: r)) :
    readMembers? (fuel + 1) ((quote k).toList ++ ':' :: cs) = some ([(some k, j)], r) := by
  simp only [toList_quote, readMembers?, bind, skipBlanks_cons (c := '"') rfl, readText?_quote,
    Option.bind_some, skipBlanks_cons (c := ':') rfl, h, skipBlanks_cons (c := '\x7d') rfl]
  rfl

theorem readMembers?_more {cs cs' r : List Char} {k : String} {j : Json}
    {members : List (Option String × Json)} {fuel : Nat}
    (h : readValue? fuel cs = some (j, ',' :: cs'))
    (hmembers : readMembers? fuel cs' = some (members, r)) :
    readMembers? (fuel + 1) ((quote k).toList ++ ':' :: cs) = some ((some k, j) :: members, r) := by
  simp only [toList_quote, readMembers?, bind, skipBlanks_cons (c := '"') rfl, readText?_quote,
    Option.bind_some, skipBlanks_cons (c := ':') rfl, h, skipBlanks_cons (c := ',') rfl, hmembers]
  rfl

theorem readItems?_bracket (fuel : Nat) (cs : List Char) : readItems? fuel (']' :: cs) = none := by
  have hnumber : readNumber? (']' :: cs) = none := by
    refine Option.eq_none_iff_forall_ne_some.mpr fun _ h => ?_
    obtain ⟨c, cs', hcs, hc⟩ := exists_head_of_readNumber? h
    obtain ⟨rfl, rfl⟩ := List.cons.inj hcs
    exact absurd hc (by decide)
  match fuel with
  | 0 | 1 => rfl
  | fuel + 2 => simp [readItems?, readValue?, skipBlanks_cons (c := ']') rfl, hnumber]

/-- Items are never taken for the end of their array. -/
theorem readValue?_array {cs r : List Char} {items : List Json} {fuel : Nat}
    (h : readItems? fuel cs = some (items, r)) :
    readValue? (fuel + 1) ('[' :: cs) = some (array items, r) := by
  rw [← readItems?_skipBlanks] at h
  simp only [readValue?, skipBlanks_cons (c := '[') rfl]
  generalize skipBlanks cs = cs' at h
  split
  case h_1 => simp [readItems?_bracket] at h
  case h_2 => simp [h]

theorem readValue?_object {cs r : List Char} {members : List (Option String × Json)} {fuel : Nat}
    (h : readMembers? fuel cs = some (members, r)) :
    readValue? (fuel + 1) ('\x7b' :: cs) = some (ofMembers members, r) := by
  rw [← readMembers?_skipBlanks] at h
  simp only [readValue?, skipBlanks_cons (c := '\x7b') rfl]
  generalize skipBlanks cs = cs' at h
  split
  case h_1 => cases fuel <;> simp [readMembers?, skipBlanks_cons (c := '\x7d') rfl] at h
  case h_2 => simp [h]

theorem toList_intercalate_cons (s t : String) (l : List String) :
    (",".intercalate (s :: t :: l)).toList = s.toList ++ ',' ::
      (",".intercalate (t :: l)).toList := by
  simp [String.intercalate_cons_cons]

theorem toList_member (k : String) (j : Json) :
    (quote k ++ ":" ++ j.render).toList = (quote k).toList ++ ':' :: j.render.toList := by
  simp

theorem readItems?_render {j : Json} {items : List Json} {fuel : Nat}
    (h : ∀ i ∈ j :: items, ReadsBack i)
    (hfuel : 2 * (",".intercalate (renderItems (j :: items))).toList.length + 1 < fuel)
    (rest : List Char) :
    readItems? fuel ((",".intercalate (renderItems (j :: items))).toList ++ ']' :: rest) =
      some (j :: items, rest) := by
  obtain ⟨hj, hitems⟩ := List.forall_mem_cons.mp h
  -- the comma or the bracket behind an item pays for the step of the list
  induction items generalizing j fuel with
  | nil =>
    obtain ⟨fuel, rfl⟩ : ∃ k, fuel = k + 1 := ⟨fuel - 1, by omega⟩
    simp only [renderItems, String.intercalate_singleton] at hfuel ⊢
    exact readItems?_last (hj fuel _ (by omega) (stops_cons (by decide) _))
  | cons i items ih =>
    obtain ⟨fuel, rfl⟩ : ∃ k, fuel = k + 1 := ⟨fuel - 1, by omega⟩
    obtain ⟨hi, htail⟩ := List.forall_mem_cons.mp hitems
    simp only [renderItems, toList_intercalate_cons, List.append_assoc, List.length_append,
      List.length_cons] at *
    refine readItems?_more (hj fuel _ (by omega) (stops_cons (by decide) _)) ?_
    exact ih hitems (by omega) hi htail

theorem readMembers?_render {m : String × Json} {members : List (String × Json)} {fuel : Nat}
    (h : ∀ i ∈ m :: members, ReadsBack i.2)
    (hfuel : 2 * (",".intercalate (renderMembers (m :: members))).toList.length + 1 < fuel)
    (rest : List Char) :
    readMembers? fuel ((",".intercalate (renderMembers (m :: members))).toList ++ '\x7d' :: rest) =
      some ((m :: members).map fun m => (some m.1, m.2), rest) := by
  obtain ⟨hm, hmembers⟩ := List.forall_mem_cons.mp h
  induction members generalizing m fuel with
  | nil =>
    obtain ⟨fuel, rfl⟩ : ∃ k, fuel = k + 1 := ⟨fuel - 1, by omega⟩
    simp only [renderMembers, String.intercalate_singleton, toList_member, List.append_assoc,
      List.cons_append, List.length_append, List.length_cons] at hfuel ⊢
    exact readMembers?_last (hm fuel _ (by omega) (stops_cons (by decide) _))
  | cons i members ih =>
    obtain ⟨fuel, rfl⟩ : ∃ k, fuel = k + 1 := ⟨fuel - 1, by omega⟩
    obtain ⟨hi, htail⟩ := List.forall_mem_cons.mp hmembers
    simp only [renderMembers, toList_intercalate_cons, toList_member, List.append_assoc,
      List.cons_append, List.length_append, List.length_cons] at *
    refine readMembers?_more (hm fuel _ (by omega) (stops_cons (by decide) _)) ?_
    exact ih hmembers (by omega) hi htail

theorem toList_render_array (items : List Json) :
    (array items).render.toList = '[' ::
      ((",".intercalate (renderItems items)).toList ++ [']']) := by
  simp only [render, String.toList_append]
  rfl

theorem toList_render_object (members : List (String × Json)) :
    (object members).render.toList = '\x7b' ::
      ((",".intercalate (renderMembers members)).toList ++ ['\x7d']) := by
  simp only [render, String.toList_append]
  rfl

theorem readsBack_array {items : List Json} (h : ∀ j ∈ items, ReadsBack j) :
    ReadsBack (array items) := by
  intro fuel rest hfuel _
  obtain ⟨fuel, rfl⟩ : ∃ k, fuel = k + 1 := ⟨fuel - 1, by omega⟩
  simp only [toList_render_array, List.length_cons, List.length_append, List.length_nil,
    List.cons_append, List.append_assoc, List.nil_append] at hfuel ⊢
  cases items with
  | nil => rfl
  | cons j items => exact readValue?_array (readItems?_render h (by omega) rest)

theorem ofMembers_some (members : List (String × Json)) :
    ofMembers (members.map fun m => (some m.1, m.2)) = object members := by
  have hall : (members.map fun m => (some m.1, m.2)).mapM (fun m => m.1.map fun k => (k, m.2)) =
      some members := by
    rw [List.mapM_map]
    exact (List.mapM_pure (m := Option) (f := id)).trans (congrArg some (List.map_id members))
  rw [ofMembers, hall]

theorem readsBack_object {members : List (String × Json)} (h : ∀ m ∈ members, ReadsBack m.2) :
    ReadsBack (object members) := by
  intro fuel rest hfuel _
  obtain ⟨fuel, rfl⟩ : ∃ k, fuel = k + 1 := ⟨fuel - 1, by omega⟩
  simp only [toList_render_object, List.length_cons, List.length_append, List.length_nil,
    List.cons_append, List.append_assoc, List.nil_append] at hfuel ⊢
  cases members with
  | nil => rfl
  | cons m members =>
    rw [← ofMembers_some]
    exact readValue?_object (readMembers?_render h (by omega) rest)

theorem allReadable_iff (items : List Json) :
    isReadable.allReadable items = true ↔ ∀ j ∈ items, j.isReadable = true := by
  induction items with
  | nil => simp [isReadable.allReadable]
  | cons j items ih => simp [isReadable.allReadable, ih]

theorem membersReadable_iff (members : List (String × Json)) :
    isReadable.membersReadable members = true ↔ ∀ m ∈ members, m.2.isReadable = true := by
  induction members with
  | nil => simp [isReadable.membersReadable]
  | cons m members ih => simp [isReadable.membersReadable, ih]

/-- By induction over the document: the parts of an array or an object read back in front of what
follows them. -/
theorem readsBack_of_exact {j : Json} (h : Numbers Exact j) (hread : j.isReadable = true) :
    ReadsBack j := by
  induction h with
  | null => exact readsBack_null
  | bool b => exact readsBack_bool b
  | int h => exact readsBack_int h
  | float h => exact readsBack_float h
  | string s => exact readsBack_string s
  | array _ ih =>
    rw [isReadable, allReadable_iff] at hread
    exact readsBack_array fun j hj => ih j hj (hread j hj)
  | object _ ih =>
    rw [isReadable, membersReadable_iff] at hread
    exact readsBack_object fun m hm => ih m hm (hread m hm)
  | unreadable => cases hread

theorem parse?_render {j : Json} (h : Numbers Exact j) (hread : j.isReadable = true) :
    parse? j.render = some j := by
  have hparse := readsBack_of_exact h hread (2 * j.render.toList.length + 2) [] (by omega) stops_nil
  rw [List.append_nil] at hparse
  simp only [parse?, hparse, bind, Option.bind_some]
  rfl

/-- Every integer has 64 bits, and every float is finite. -/
def InRange : Json → Prop := Numbers (·.isFinite = true)

theorem NumberWord.toJson_inRange (w : NumberWord) : InRange w.toJson := by
  simp only [toJson]
  split
  case h_1 n _ hn => exact .int (fits64_of_integer? hn)
  case h_2 hx =>
    refine .float ?_
    rw [Binary64.withSign_isFinite]
    exact magnitude?_isFinite hx
  case h_3 => exact .unreadable

theorem ofMembers_inRange {members : List (Option String × Json)}
    (h : ∀ m ∈ members, InRange m.2) : InRange (ofMembers members) := by
  have hkept {ms : List (String × Json)}
      (hms : members.mapM (fun m => m.1.map fun k => (k, m.2)) = some ms) :
      ∀ m ∈ ms, InRange m.2 := by
    induction members generalizing ms with
    | nil => simp_all
    | cons m members ih =>
      obtain ⟨hm, hmembers⟩ := List.forall_mem_cons.mp h
      simp only [List.mapM_cons, bind, Option.bind_eq_some_iff, Option.map_eq_some_iff] at hms
      obtain ⟨_, ⟨k, -, rfl⟩, ms, hms, ⟨⟩⟩ := hms
      exact List.forall_mem_cons.mpr ⟨hm, ih hmembers hms⟩
  simp only [ofMembers]
  split
  case h_1 hms => exact .object (hkept hms)
  case h_2 => exact .unreadable

/-- Everything that is read with so much fuel is in range. -/
structure ReadsInRange (fuel : Nat) : Prop where
  value : ∀ {cs j r}, readValue? fuel cs = some (j, r) → InRange j
  items : ∀ {cs items r}, readItems? fuel cs = some (items, r) → ∀ j ∈ items, InRange j
  members : ∀ {cs members r}, readMembers? fuel cs = some (members, r) →
    ∀ m ∈ members, InRange m.2

namespace ReadsInRange

variable {fuel : Nat} {cs r : List Char}

theorem keyword_inRange {word : String} {j k : Json} (hj : InRange j)
    (h : keyword? word j cs = some (k, r)) : InRange k := by
  obtain ⟨_, -, heq⟩ := Option.map_eq_some_iff.mp h
  cases heq
  exact hj

theorem value_succ (h : ReadsInRange fuel) {j : Json}
    (hj : readValue? (fuel + 1) cs = some (j, r)) : InRange j := by
  simp only [readValue?, bind] at hj
  split at hj
  case h_1 => cases hj
  case h_2 =>
    split at hj
    · cases hj
      exact .array (by simp)
    · obtain ⟨_, hitems, ⟨⟩⟩ := Option.bind_eq_some_iff.mp hj
      exact .array (h.items hitems)
  case h_3 =>
    split at hj
    · cases hj
      exact .object (by simp)
    · obtain ⟨_, hmembers, ⟨⟩⟩ := Option.bind_eq_some_iff.mp hj
      exact ofMembers_inRange (h.members hmembers)
  case h_4 =>
    obtain ⟨⟨s, _⟩, -, ⟨⟩⟩ := Option.bind_eq_some_iff.mp hj
    cases s
    · exact .unreadable
    · exact .string _
  case h_5 => exact keyword_inRange .null hj
  case h_6 => exact keyword_inRange (.bool true) hj
  case h_7 => exact keyword_inRange (.bool false) hj
  case h_8 =>
    obtain ⟨⟨w, _⟩, -, ⟨⟩⟩ := Option.bind_eq_some_iff.mp hj
    exact w.toJson_inRange

theorem items_succ (h : ReadsInRange fuel) {items : List Json}
    (hitems : readItems? (fuel + 1) cs = some (items, r)) : ∀ j ∈ items, InRange j := by
  simp only [readItems?, bind, Option.bind_eq_some_iff] at hitems
  obtain ⟨⟨j, s⟩, hj, hitems⟩ := hitems
  split at hitems
  · obtain ⟨_, hmore, ⟨⟩⟩ := Option.bind_eq_some_iff.mp hitems
    exact List.forall_mem_cons.mpr ⟨h.value hj, h.items hmore⟩
  · cases hitems
    exact List.forall_mem_singleton.mpr (h.value hj)
  · cases hitems

theorem members_succ (h : ReadsInRange fuel) {members : List (Option String × Json)}
    (hmembers : readMembers? (fuel + 1) cs = some (members, r)) :
    ∀ m ∈ members, InRange m.2 := by
  simp only [readMembers?, bind] at hmembers
  split at hmembers
  case h_2 => cases hmembers
  case h_1 =>
    obtain ⟨⟨k, _⟩, -, hmembers⟩ := Option.bind_eq_some_iff.mp hmembers
    split at hmembers
    case h_2 => cases hmembers
    case h_1 =>
      obtain ⟨⟨j, _⟩, hj, hmembers⟩ := Option.bind_eq_some_iff.mp hmembers
      split at hmembers
      · obtain ⟨_, hmore, ⟨⟩⟩ := Option.bind_eq_some_iff.mp hmembers
        exact List.forall_mem_cons.mpr ⟨h.value hj, h.members hmore⟩
      · cases hmembers
        exact List.forall_mem_singleton.mpr (h.value hj)
      · cases hmembers

end ReadsInRange

theorem readsInRange : ∀ fuel, ReadsInRange fuel
  | 0 => ⟨nofun, nofun, nofun⟩
  | fuel + 1 =>
    have h := readsInRange fuel
    ⟨h.value_succ, h.items_succ, h.members_succ⟩

theorem parse?_inRange {text : String} {j : Json} (h : parse? text = some j) : InRange j := by
  simp only [parse?, bind, Option.bind_eq_some_iff] at h
  obtain ⟨⟨j, rest⟩, hread, _, _, hj⟩ := h
  cases hj
  exact (readsInRange _).value hread

end GraphSync.Json
