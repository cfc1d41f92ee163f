import GraphSync.Json.Forms
import GraphSync.Proofs.Json.Document

namespace GraphSync

open Json

/-- A type with a written form and a reader of all its spellings. -/
structure Form (α : Type) where
  write : α → Json
  read? : Json → Option α
  /-- The floats that a value holds. -/
  floats : α → List Binary64 := fun _ => []
  /-- Every other number of a value has the size of its type. -/
  Fits : α → Prop := fun _ => True

namespace Form

variable {α : Type} {f : Form α} {x : α}

def encode (f : Form α) (x : α) : String := (f.write x).render

def decode? (f : Form α) (text : String) : Option α := Json.parse? text >>= f.read?

/-- The number layer prints and parses the finite floats of a value exactly. -/
def Exact (f : Form α) (x : α) : Prop := ∀ b ∈ f.floats x, b.isFinite = true → Json.Exact b

/-- A value of finite floats reads back from its text, and so does whatever any text is read as. -/
structure RoundTrips (f : Form α) : Prop where
  value : ∀ x, f.Fits x → (∀ b ∈ f.floats x, b.isFinite = true) → f.Exact x →
    f.decode? (f.encode x) = some x
  text : ∀ text x, f.decode? text = some x → f.Exact x → f.decode? (f.encode x) = some x

/-- What makes a form lawful, in terms of documents. -/
structure Lawful (f : Form α) : Prop where
  readable : ∀ x, (f.write x).isReadable = true
  numbers : ∀ {p x}, f.Fits x → (∀ b ∈ f.floats x, p b) → Numbers p (f.write x)
  read_write : ∀ {x}, f.Fits x → f.read? (f.write x) = some x
  inRange : ∀ {j x}, InRange j → f.read? j = some x → f.Fits x ∧ ∀ b ∈ f.floats x,
    b.isFinite = true

theorem Lawful.decode?_encode (h : f.Lawful) (hfits : f.Fits x)
    (hexact : ∀ b ∈ f.floats x, Json.Exact b) : f.decode? (f.encode x) = some x := by
  rw [decode?, encode, parse?_render (h.numbers hfits hexact) (h.readable x)]
  exact h.read_write hfits

theorem Lawful.roundTrips (h : f.Lawful) : f.RoundTrips where
  value x hfits hfinite hexact := h.decode?_encode hfits fun b hb => hexact b hb (hfinite b hb)
  text text x hx hexact := by
    obtain ⟨j, hj, hread⟩ := Option.bind_eq_some_iff.mp hx
    obtain ⟨hfits, hfinite⟩ := h.inRange (parse?_inRange hj) hread
    exact h.decode?_encode hfits fun b hb => hexact b hb (hfinite b hb)

end Form

namespace Json

theorem fields?_inRange {names : List String} {j x : Json} {fields : List (Option Json)}
    (hj : InRange j) (h : fields? names j = some fields) (hx : some x ∈ fields) : InRange x := by
  cases hj <;> simp only [fields?, reduceCtorEq] at h
  case array items hitems =>
    split at h
    · cases h
    · obtain rfl := Option.some.inj h
      obtain ⟨i, -, hi⟩ := List.mem_map.mp hx
      exact hitems x (List.mem_of_getElem? hi)
  case object members hmembers =>
    split at h
    · cases h
    · obtain rfl := Option.some.inj h
      obtain ⟨name, -, hm⟩ := List.mem_map.mp hx
      simp only [member?] at hm
      split at hm
      case h_1 m k hk =>
        obtain rfl := Option.some.inj hm
        exact hmembers _ (List.mem_filter.mp (hk ▸ List.mem_singleton_self _)).1
      case h_2 => cases hm

theorem asFloat?_isFinite {j : Json} {x : Binary64} (hj : InRange j) (h : j.asFloat? = some x) :
    x.isFinite = true := by
  cases hj <;> simp only [asFloat?, reduceCtorEq, Option.some.injEq] at h
  case float hx => exact h ▸ hx
  case int n hn =>
    have hmin : Int64.minValue.toInt = -2 ^ 63 := rfl
    simp only [Fits64, hmin, UInt64.size] at hn
    exact h ▸ Binary64.ofInt_isFinite (by omega)

theorem asNatBelow?_ofNat {bound n : Nat} (h : n < bound) :
    asNatBelow? bound (ofNat n) = some n := by
  simp [asNatBelow?, ofNat, h]

theorem lt_of_asNatBelow? {bound n : Nat} {j : Json} (h : asNatBelow? bound j = some n) :
    n < bound := by
  cases j <;> simp only [asNatBelow?, reduceCtorEq] at h
  case int k =>
    split at h
    case isTrue hk =>
      obtain rfl := Option.some.inj h
      omega
    case isFalse => cases h

theorem numbers_ofNat {p : Binary64 → Prop} {n : Nat} (h : n < UInt64.size) :
    Numbers p (ofNat n) := by
  refine .int ⟨Int.le_trans ?_ (Int.natCast_nonneg n), by exact_mod_cast h⟩
  decide

theorem numbers_object_iff {p : Binary64 → Prop} {members : List (String × Json)} :
    Numbers p (object members) ↔ ∀ m ∈ members, Numbers p m.2 :=
  ⟨fun | .object h => h, .object⟩

attribute [simp] Numbers.string Numbers.bool numbers_object_iff

end Json

theorem ElementId.ofJson?_toJson {id : ElementId} (h : id.index < UInt32.size) :
    ofJson? id.toJson = some id := by
  simp [ofJson?, toJson, asNatBelow?_ofNat h]

theorem ElementId.lt_of_ofJson? {j : Json} {id : ElementId} (h : ofJson? j = some id) :
    id.index < UInt32.size := by
  obtain ⟨n, hn, rfl⟩ := Option.map_eq_some_iff.mp h
  exact lt_of_asNatBelow? hn

theorem ElementId.toJson_numbers {p : Binary64 → Prop} {id : ElementId}
    (h : id.index < UInt32.size) : Numbers p id.toJson :=
  numbers_ofNat (Nat.lt_trans h (by decide))

namespace Value

/-- The form of values, on their own or inside a `nested` form. -/
def form (nested : Bool) : Form Value where
  write := toJson
  read? := ofJson? nested
  floats
    | float x => [x]
    | _ => []

theorem asInt64?_toInt (n : Int64) : (Json.int n.toInt).asInt64? = some n := by
  rw [asInt64?, if_pos ⟨n.minValue_le_toInt, n.toInt_le⟩, Int64.ofInt_toInt]

theorem fits64_toInt (n : Int64) : Fits64 n.toInt :=
  ⟨n.minValue_le_toInt, Int.lt_trans n.toInt_lt (by decide)⟩

theorem ofJson?_toJson (nested : Bool) (v : Value) : ofJson? nested v.toJson = some v := by
  cases v <;> simp [toJson, ofJson?, fields?, repeats, member?, memberType?, asName?, ofContent?,
    Json.asBool?, asFloat?, asString?, asInt64?_toInt]

theorem toJson_isReadable (v : Value) : v.toJson.isReadable = true := by cases v <;> rfl

theorem toJson_depth (v : Value) : v.toJson.depth = 1 := by cases v <;> rfl

theorem ofContent?_isFinite {nested : Bool} {type : String} {content : Option Json} {v : Value}
    (hcontent : ∀ j, content = some j → InRange j) (h : ofContent? type content = some v) :
    ∀ x ∈ (form nested).floats v, x.isFinite = true := by
  simp only [ofContent?] at h
  split at h
  case h_5 j =>
    obtain ⟨x, hx, rfl⟩ := Option.map_eq_some_iff.mp h
    exact List.forall_mem_singleton.mpr (asFloat?_isFinite (hcontent j rfl) hx)
  case h_7 => cases h
  case h_1 | h_2 =>
    cases h
    exact nofun
  all_goals
    obtain ⟨_, -, rfl⟩ := Option.map_eq_some_iff.mp h
    exact nofun

theorem form_lawful (nested : Bool) : (form nested).Lawful where
  readable := toJson_isReadable
  numbers {p v} _ h := by
    cases v <;> simp only [form, toJson, numbers_object_iff, List.forall_mem_cons] at *
    case int => exact ⟨.string _, .int (fits64_toInt _), nofun⟩
    case float => exact ⟨.string _, .float h.1, nofun⟩
    all_goals simp
  read_write _ := ofJson?_toJson nested _
  inRange {j v} hj h := by
    simp only [form, ofJson?, bind, Option.bind_eq_some_iff] at h
    obtain ⟨fields, hfields, h⟩ := h
    have hpart : ∀ x, some x ∈ fields → InRange x := fun x hx => fields?_inRange hj hfields hx
    split at h
    case h_1 | h_2 =>
      obtain ⟨type, -, h⟩ := Option.bind_eq_some_iff.mp h
      exact ⟨trivial, ofContent?_isFinite (by simp_all) h⟩
    case h_3 => cases h

end Value

namespace Shadow

def form : Form Shadow where
  write := toJson
  read? := ofJson?
  floats s := (Value.form false).floats s.left ++ (Value.form false).floats s.right

theorem form_lawful : form.Lawful where
  readable s := by
    simp [form, toJson, isReadable, isReadable.membersReadable, Value.toJson_isReadable]
  numbers {p s} _ h := by
    obtain ⟨hl, hr⟩ := List.forall_mem_append.mp h
    have hleft : Numbers p s.left.toJson := (Value.form_lawful false).numbers trivial hl
    have hright : Numbers p s.right.toJson := (Value.form_lawful false).numbers trivial hr
    simp [form, toJson, hleft, hright]
  read_write _ := by simp [form, toJson, ofJson?, fields?, repeats, member?, Value.ofJson?_toJson]
  inRange {j s} hj h := by
    simp only [form, ofJson?, bind, Option.bind_eq_some_iff] at h
    obtain ⟨fields, hfields, h⟩ := h
    split at h
    case h_2 => cases h
    case h_1 l r =>
      obtain ⟨v, hv, h⟩ := Option.bind_eq_some_iff.mp h
      obtain ⟨w, hw, ⟨⟩⟩ := Option.bind_eq_some_iff.mp h
      have hl : InRange l := fields?_inRange hj hfields (by simp)
      have hr : InRange r := fields?_inRange hj hfields (by simp)
      exact ⟨trivial, List.forall_mem_append.mpr
        ⟨((Value.form_lawful false).inRange hl hv).2,
          ((Value.form_lawful false).inRange hr hw).2⟩⟩

end Shadow

namespace Effect

/-- Positions have 64 bits, and handles have 32. -/
def Fits : Effect → Prop
  | attributeSet .. => True
  | referenceAdded _ index target | referenceRemoved _ index target =>
    index < UInt64.size ∧ target.index < UInt32.size

def form : Form Effect where
  write := toJson
  read? := ofJson?
  floats
    | attributeSet _ before after =>
      (Value.form true).floats before ++ (Value.form true).floats after
    | _ => []
  Fits := Fits

theorem toJson_isReadable (e : Effect) : e.toJson.isReadable = true := by
  cases e <;> simp [toJson, isReadable, isReadable.membersReadable, Value.toJson_isReadable, ofNat,
    ElementId.toJson]

theorem toJson_depth (e : Effect) : e.toJson.depth ≤ depthLimit := by
  cases e <;> simp [toJson, depth, depth.memberDepths, Value.toJson_depth, ofNat,
    ElementId.toJson, depthLimit]

theorem reference?_eq_some {j : Json} {role : RoleName} {index : Nat} {target : ElementId} :
    reference? j = some (role, index, target) ↔
      ∃ a b c, fields? ["role", "index", "target"] j = some [some a, some b, some c] ∧
        a.asString? = some role ∧ b.asNatBelow? UInt64.size = some index ∧
        ElementId.ofJson? c = some target := by
  simp only [reference?, bind, Option.bind_eq_some_iff]
  constructor
  · rintro ⟨fields, hfields, h⟩
    split at h
    · obtain ⟨_, ha, h⟩ := Option.bind_eq_some_iff.mp h
      obtain ⟨_, hb, h⟩ := Option.bind_eq_some_iff.mp h
      obtain ⟨_, hc, ⟨⟩⟩ := Option.bind_eq_some_iff.mp h
      exact ⟨_, _, _, hfields, ha, hb, hc⟩
    · cases h
  · rintro ⟨a, b, c, hfields, ha, hb, hc⟩
    refine ⟨_, hfields, ?_⟩
    simp only [ha, hb, hc, Option.bind_some]
    rfl

theorem untagged?_object {tag : String} {members : List (String × Json)}
    (h : ∀ m ∈ members, m.1 ≠ "change") :
    untagged? (.object (("change", .string tag) :: members)) = some (tag, .object members) := by
  have hnone : members.filter (·.1 = "change") = [] :=
    List.filter_eq_nil_iff.mpr fun m hm => by simp [h m hm]
  simp [untagged?, repeats, member?, asString?, hnone]
  exact fun name j => h (name, j)

theorem reference?_object {role : RoleName} {index : Nat} {target : ElementId}
    (hindex : index < UInt64.size) (htarget : target.index < UInt32.size) :
    reference?
      (.object [("role", .string role), ("index", .ofNat index), ("target", target.toJson)]) =
      some (role, index, target) :=
  reference?_eq_some.mpr
    ⟨.string role, .ofNat index, target.toJson, by simp [fields?, repeats, member?], rfl,
    asNatBelow?_ofNat hindex, ElementId.ofJson?_toJson htarget⟩

theorem ofJson?_eq_some {j : Json} {e : Effect} :
    ofJson? j = some e ↔ (j.isReadable = true ∧ j.depth ≤ depthLimit) ∧
      ∃ tag rest, untagged? j = some (tag, rest) ∧ ofFields? tag rest = some e := by
  simp only [ofJson?, bind, Option.bind_eq_some_iff, Option.guard_eq_some']
  constructor
  · rintro ⟨_, hj, ⟨tag, rest⟩, htag, h⟩
    exact ⟨hj, tag, rest, htag, h⟩
  · rintro ⟨hj, tag, rest, htag, h⟩
    exact ⟨(), hj, (tag, rest), htag, h⟩

theorem ofJson?_toJson {e : Effect} (h : e.Fits) : ofJson? e.toJson = some e := by
  refine ofJson?_eq_some.mpr ⟨⟨e.toJson_isReadable, e.toJson_depth⟩, ?_⟩
  cases e
  case attributeSet =>
    refine ⟨_, _, untagged?_object (by simp), ?_⟩
    simp [ofFields?, fields?, repeats, member?, asString?, Value.ofJson?_toJson]
  case referenceAdded =>
    refine ⟨_, _, untagged?_object (by simp), ?_⟩
    simp [ofFields?, reference?_object h.1 h.2]
  case referenceRemoved =>
    refine ⟨_, _, untagged?_object (by simp), ?_⟩
    simp [ofFields?, reference?_object h.1 h.2]

theorem untagged?_inRange {j rest : Json} {tag : String} (hj : InRange j)
    (h : untagged? j = some (tag, rest)) : InRange rest := by
  cases hj <;> simp only [untagged?, reduceCtorEq] at h
  case array items hitems =>
    cases items with
    | nil => cases h
    | cons first items =>
      obtain ⟨_, -, ⟨⟩⟩ := Option.bind_eq_some_iff.mp h
      exact .array (List.forall_mem_cons.mp hitems).2
  case object members hmembers =>
    simp only [bind, Option.bind_eq_some_iff] at h
    obtain ⟨_, -, _, -, _, -, ⟨⟩⟩ := h
    exact .object fun m hm => hmembers m (List.mem_filter.mp hm).1

theorem reference?_fits {j : Json} {role : RoleName} {index : Nat} {target : ElementId}
    (h : reference? j = some (role, index, target)) :
    index < UInt64.size ∧ target.index < UInt32.size := by
  obtain ⟨_, _, _, -, -, hindex, htarget⟩ := reference?_eq_some.mp h
  exact ⟨lt_of_asNatBelow? hindex, ElementId.lt_of_ofJson? htarget⟩

theorem ofFields?_inRange {tag : String} {rest : Json} {e : Effect} (hrest : InRange rest)
    (h : ofFields? tag rest = some e) : e.Fits ∧ ∀ b ∈ form.floats e, b.isFinite = true := by
  simp only [ofFields?] at h
  split at h
  case h_1 =>
    obtain ⟨fields, hfields, h⟩ := Option.bind_eq_some_iff.mp h
    split at h
    case h_2 => cases h
    case h_1 name before after =>
      obtain ⟨_, -, h⟩ := Option.bind_eq_some_iff.mp h
      obtain ⟨v, hv, h⟩ := Option.bind_eq_some_iff.mp h
      obtain ⟨w, hw, ⟨⟩⟩ := Option.bind_eq_some_iff.mp h
      have hbefore : InRange before := fields?_inRange hrest hfields (by simp)
      have hafter : InRange after := fields?_inRange hrest hfields (by simp)
      exact ⟨trivial, List.forall_mem_append.mpr
        ⟨((Value.form_lawful true).inRange hbefore hv).2,
          ((Value.form_lawful true).inRange hafter hw).2⟩⟩
  case h_2 | h_3 =>
    obtain ⟨⟨role, index, target⟩, hreference, ⟨⟩⟩ := Option.bind_eq_some_iff.mp h
    exact ⟨reference?_fits hreference, nofun⟩
  case h_4 => cases h

theorem form_lawful : form.Lawful where
  readable := toJson_isReadable
  numbers {p e} hfits h := by
    cases e
    case attributeSet name before after =>
      obtain ⟨hb, ha⟩ := List.forall_mem_append.mp h
      have hbefore : Numbers p before.toJson := (Value.form_lawful true).numbers trivial hb
      have hafter : Numbers p after.toJson := (Value.form_lawful true).numbers trivial ha
      simp [form, toJson, hbefore, hafter]
    case referenceAdded | referenceRemoved =>
      simp [form, toJson, numbers_ofNat hfits.1, ElementId.toJson_numbers hfits.2]
  read_write := ofJson?_toJson
  inRange {j e} hj h := by
    obtain ⟨-, tag, rest, htag, h⟩ := ofJson?_eq_some.mp h
    exact ofFields?_inRange (untagged?_inRange hj htag) h

end Effect

namespace Change

def form : Form Change where
  write := toJson
  read? := ofJson?
  floats c := Effect.form.floats c.effect
  Fits c := c.element.index < UInt32.size ∧ c.effect.Fits

theorem ofJson?_eq_some {j : Json} {c : Change} :
    ofJson? j = some c ↔ ∃ a b, fields? ["element", "kind"] j = some [some a, some b] ∧
      ElementId.ofJson? a = some c.element ∧ Effect.ofJson? b = some c.effect := by
  simp only [ofJson?, bind, Option.bind_eq_some_iff]
  constructor
  · rintro ⟨fields, hfields, h⟩
    split at h
    · obtain ⟨_, ha, h⟩ := Option.bind_eq_some_iff.mp h
      obtain ⟨_, hb, ⟨⟩⟩ := Option.bind_eq_some_iff.mp h
      exact ⟨_, _, hfields, ha, hb⟩
    · cases h
  · rintro ⟨a, b, hfields, ha, hb⟩
    refine ⟨_, hfields, ?_⟩
    simp only [ha, hb, Option.bind_some]
    rfl

theorem form_lawful : form.Lawful where
  readable c := by
    simp [form, toJson, isReadable, isReadable.membersReadable, Effect.toJson_isReadable, ofNat,
      ElementId.toJson]
  numbers {p c} hfits h := by
    have heffect : Numbers p c.effect.toJson := Effect.form_lawful.numbers hfits.2 h
    simp [form, toJson, heffect, ElementId.toJson_numbers hfits.1]
  read_write hfits :=
    ofJson?_eq_some.mpr ⟨_, _, by simp [form, toJson, fields?, repeats, member?],
    ElementId.ofJson?_toJson hfits.1, Effect.ofJson?_toJson hfits.2⟩
  inRange {j c} hj h := by
    obtain ⟨a, b, hfields, ha, hb⟩ := ofJson?_eq_some.mp h
    obtain ⟨hfits, hfinite⟩ :=
      Effect.form_lawful.inRange (fields?_inRange hj hfields (by simp)) hb
    exact ⟨⟨ElementId.lt_of_ofJson? ha, hfits⟩, hfinite⟩

end Change

def Child.form : Form Child where
  write := toJson
  read? := ofJson?

theorem Child.form_lawful : form.Lawful where
  readable _ := rfl
  numbers _ _ := by simp [form, toJson]
  read_write _ := by simp [form, toJson, ofJson?, fields?, repeats, member?, asString?]
  inRange _ _ := ⟨trivial, nofun⟩

def Options.form : Form Options where
  write := toJson
  read? := ofJson?

theorem Options.form_lawful : form.Lawful where
  readable _ := rfl
  numbers _ _ := by simp [form, toJson, Direction.toJson, Propagation.toJson]
  read_write _ := by
    simp [form, toJson, ofJson?, fields?, repeats, member?, asName?, Direction.ofJson?,
      Direction.toJson, Propagation.ofJson?, Propagation.toJson]
  inRange _ _ := ⟨trivial, nofun⟩

/-- Values, changes, shadows, children and options read back from their texts, and from whatever
spelling they were read, they are written and read again as themselves. -/
theorem forms_roundTrip : (Value.form false).RoundTrips ∧ Change.form.RoundTrips ∧
    Shadow.form.RoundTrips ∧ Child.form.RoundTrips ∧ Options.form.RoundTrips :=
  ⟨(Value.form_lawful false).roundTrips, Change.form_lawful.roundTrips,
    Shadow.form_lawful.roundTrips, Child.form_lawful.roundTrips, Options.form_lawful.roundTrips⟩

/-- One and a half. -/
def Binary64.threeHalves : Binary64 := ⟨0x3ff8000000000000⟩

theorem Binary64.threeHalves_exact : Json.Exact threeHalves := by
  have htext : (floatText threeHalves).toList = ['1', '.', '5'] := by decide +kernel
  have hint : NumberWord.integer? ⟨false, ['1'], some ['5'], none⟩ = none := rfl
  have hfloat : NumberWord.magnitude? ⟨false, ['1'], some ['5'], none⟩ = some threeHalves := by
    decide +kernel
  refine ⟨⟨false, ['1'], some ['5'], none⟩, htext ▸ rfl, ?_⟩
  simp only [NumberWord.toJson, hint, hfloat]
  rfl

/-- An attribute that goes from nothing to one and a half reads back from its text. It is read, too,
from arrays with the float in scientific notation, and reads back after that. -/
theorem forms_roundTrip_change :
    let c : Change := ⟨⟨7⟩, .attributeSet "mass" .unset (.float .threeHalves)⟩
    let arrays := "[7, [\"attribute_set\", \"mass\", [\"unset\", null], [\"float\", 15e-1]]]"
    Change.form.Fits c ∧ Change.form.Exact c ∧
      Change.form.decode? (Change.form.encode c) = some c ∧
      Change.form.decode? arrays = some c ∧
        (Change.form.decode? arrays).bind (fun c => Change.form.decode? (Change.form.encode c)) =
          some c := by
  intro c arrays
  have hfits : Change.form.Fits c := ⟨by decide, trivial⟩
  have hfinite : ∀ b ∈ Change.form.floats c, b.isFinite = true := by decide
  have hexact : Change.form.Exact c := by
    intro b hb _
    obtain rfl := List.mem_singleton.mp hb
    exact Binary64.threeHalves_exact
  have hread : Change.form.decode? arrays = some c := by decide +kernel
  refine ⟨hfits, hexact, forms_roundTrip.2.1.value c hfits hfinite hexact, hread, ?_⟩
  rw [hread, Option.bind_some]
  exact forms_roundTrip.2.1.text arrays c hread hexact

end GraphSync
