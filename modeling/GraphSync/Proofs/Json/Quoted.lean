import GraphSync.Json.Printer
import GraphSync.Json.Reader
import Mathlib.Data.Option.Basic

namespace GraphSync.Json

variable {rest : List Char}

theorem digit?_digitChar {n : Nat} (h : n < 16) : Text.digit? (Nat.digitChar n) = some n := by
  have hall : ∀ n < 16, Text.digit? (Nat.digitChar n) = some n := by decide
  exact hall n h

theorem takeHex?_hexByte {n : Nat} (h : n < 256) :
    Text.takeHex? 4 ('0' :: '0' :: (hexByte n ++ rest)) = some (n, rest) := by
  have hhigh := digit?_digitChar (n := n / 16 % 16) (by omega)
  have hlow := digit?_digitChar (n := n % 16) (by omega)
  have hzero : Text.digit? '0' = some 0 := rfl
  simp [Text.takeHex?, hexByte, Text.number, hhigh, hlow, hzero]
  omega

theorem codePoint?_toNat (c : Char) : Text.codePoint? c.toNat = some c := by
  have hvalid : c.toNat.isValidChar := c.valid
  rw [Text.codePoint?, dif_pos hvalid]
  rfl

theorem readUnicode?_hexByte {c : Char} (h : c.toNat < 256) :
    readUnicode? ('0' :: '0' :: (hexByte c.toNat ++ rest)) = some (some c, rest) := by
  simp [readUnicode?, takeHex?_hexByte h, show c.toNat < 0xd800 by omega, codePoint?_toNat]

/-- What is read after a unit, with that unit at its front. -/
def withUnit (c : Char) (r : Option (List Unit16 × List Char)) :
    Option (List Unit16 × List Char) :=
  r.map fun (us, rest) => (some c :: us, rest)

theorem readUnits?_simple {letter c : Char} (h : simpleEscape? letter = some c) (fuel : Nat)
    (rest : List Char) :
    readUnits? (fuel + 1) ('\\' :: letter :: rest) = withUnit c (readUnits? fuel rest) := by
  have hu : letter ≠ 'u' := by
    rintro rfl
    cases h
  rw [readUnits?, h]
  · cases readUnits? fuel rest <;> rfl
  · exact hu

theorem readUnits?_control {c : Char} (h : c.toNat < 256) (fuel : Nat) (rest : List Char) :
    readUnits? (fuel + 1) ('\\' :: 'u' :: '0' :: '0' :: (hexByte c.toNat ++ rest)) =
      withUnit c (readUnits? fuel rest) := by
  simp only [readUnits?, readUnicode?_hexByte h, bind, Option.bind_some]
  cases readUnits? fuel rest <;> rfl

theorem readUnits?_plain {c : Char} (hquote : c ≠ '"') (hslash : c ≠ '\\') (h : 32 ≤ c.toNat)
    (fuel : Nat) (rest : List Char) :
    readUnits? (fuel + 1) (c :: rest) = withUnit c (readUnits? fuel rest) := by
  rw [readUnits?, (Option.guard_eq_some' ()).mpr ⟨hslash, h⟩]
  · cases readUnits? fuel rest <;> rfl
  · exact hquote
  · exact fun _ hc => absurd hc hslash
  · exact fun _ _ hc => absurd hc hslash

/-- A character is read as one unit, escaped or not. -/
theorem readUnits?_escape (fuel : Nat) (c : Char) :
    readUnits? (fuel + 1) (escape c ++ rest) = withUnit c (readUnits? fuel rest) := by
  by_cases hquote : c = '"'
  · exact hquote ▸ readUnits?_simple rfl ..
  by_cases hslash : c = '\\'
  · exact hslash ▸ readUnits?_simple rfl ..
  by_cases hline : c = '\n'
  · exact hline ▸ readUnits?_simple rfl ..
  by_cases hreturn : c = '\r'
  · exact hreturn ▸ readUnits?_simple rfl ..
  by_cases htab : c = '\t'
  · exact htab ▸ readUnits?_simple rfl ..
  by_cases hback : c = '\x08'
  · exact hback ▸ readUnits?_simple rfl ..
  by_cases hfeed : c = '\x0c'
  · exact hfeed ▸ readUnits?_simple rfl ..
  simp only [escape, hquote, hslash, hline, hreturn, htab, hback, hfeed, if_false]
  split
  case isTrue hcontrol => exact readUnits?_control (by omega) ..
  case isFalse hplain => exact readUnits?_plain hquote hslash (by omega) ..

theorem readUnits?_flatMap (cs : List Char) {fuel : Nat} (h : cs.length < fuel) :
    readUnits? fuel (cs.flatMap escape ++ '"' :: rest) = some (cs.map some, rest) := by
  induction cs generalizing fuel with
  | nil =>
    obtain ⟨fuel, rfl⟩ := Nat.exists_eq_add_of_lt h
    simp [readUnits?]
  | cons c cs ih =>
    obtain ⟨fuel, rfl⟩ := Nat.exists_eq_add_one_of_ne_zero (Nat.ne_of_gt (Nat.zero_lt_of_lt h))
    rw [List.flatMap_cons, List.append_assoc, readUnits?_escape, ih (by simpa using h)]
    rfl

theorem escape_ne_nil (c : Char) : escape c ≠ [] := by
  simp only [escape]
  repeat' split
  all_goals simp

theorem length_le_flatMap_escape (cs : List Char) : cs.length ≤ (cs.flatMap escape).length := by
  induction cs with
  | nil => exact Nat.le_refl 0
  | cons c cs ih =>
    have := List.length_pos_iff.mpr (escape_ne_nil c)
    rw [List.flatMap_cons, List.length_append, List.length_cons]
    omega

theorem readText?_quote (s : String) :
    readText? (s.toList.flatMap escape ++ '"' :: rest) = some (some s, rest) := by
  have hfuel : s.toList.length < (s.toList.flatMap escape ++ '"' :: rest).length + 1 := by
    have := length_le_flatMap_escape s.toList
    rw [List.length_append]
    omega
  have hall : (s.toList.map some).mapM id = some s.toList := by
    rw [List.mapM_map]
    simpa using List.mapM_pure (m := Option) (f := id) (l := s.toList)
  simp only [readText?, readUnits?_flatMap _ hfuel, bind, Option.bind_some, hall]
  simp

end GraphSync.Json
