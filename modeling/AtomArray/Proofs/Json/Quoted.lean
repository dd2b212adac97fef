import AtomArray.Json.Printer
import AtomArray.Json.Reader
import Mathlib

/-! Quoted texts: reading undoes the escapes that writing makes. -/

namespace AtomArray.Json

variable {c : Char} {cs rest : List Char}

theorem hexDigit?_hexChar : ∀ n < 16, hexDigit? (hexChar n) = some n := by decide

theorem hex4?_hexChar {n : Nat} (h : n < 32) :
    hex4? '0' '0' (hexChar (n / 16)) (hexChar (n % 16)) = some n := by
  have hzero : hexDigit? '0' = some 0 := rfl
  simp only [hex4?, hzero, hexDigit?_hexChar (n / 16) (by omega),
    hexDigit?_hexChar (n % 16) (by omega)]
  change some (((0 * 16 + 0) * 16 + n / 16) * 16 + n % 16) = some n
  rw [Option.some.injEq]
  omega

/-- A character that can stand in quotes as it is. -/
def IsPlain (c : Char) : Prop := c ≠ '"' ∧ c ≠ '\\' ∧ ¬ c < ' '

theorem readString_plain (h : IsPlain c) (cs : List Char) :
    readString none (c :: cs) = (readString none cs).map (StringRest.push c) := by
  obtain ⟨hquote, hbackslash, hcontrol⟩ := h
  rw [readString]
  · rw [if_neg (not_or.2 ⟨hcontrol, hbackslash⟩)]
    rfl
  all_goals simp_all

/-- A control character is escaped by its number. -/
theorem readString_numbered (h : c < ' ') (cs : List Char) :
    readString none ('\\' :: 'u' :: '0' :: '0' :: hexChar (c.toNat / 16) ::
      hexChar (c.toNat % 16) :: cs) = (readString none cs).map (StringRest.push c) := by
  have hlt : c.toNat < 32 := h
  have hlead : isLead c.toNat = false := by
    rw [isLead, decide_eq_false (by omega), Bool.false_and]
  have htrail : isTrail c.toNat = false := by
    rw [isTrail, decide_eq_false (by omega), Bool.false_and]
  rw [readString, hex4?_hexChar hlt]
  simp only [hlead, htrail, Char.ofNat_toNat, Bool.false_eq_true, if_false]

theorem readString_escape (c : Char) (cs : List Char) :
    readString none (escape c ++ cs) = (readString none cs).map (StringRest.push c) := by
  unfold escape
  split
  next => rfl
  next => rfl
  next => rfl
  next => rfl
  next => rfl
  next => rfl
  next => rfl
  next hquote hbackslash _ _ _ _ _ =>
    split_ifs with hcontrol
    · exact readString_numbered hcontrol cs
    · exact readString_plain ⟨hquote, hbackslash, hcontrol⟩ cs

/-- A quoted text is read back, and what stands behind it is left. -/
theorem readString_quote (cs rest : List Char) :
    readString none (cs.flatMap escape ++ '"' :: rest) = some (some cs, rest) := by
  induction cs with
  | nil => rfl
  | cons c cs ih =>
      rw [List.flatMap_cons, List.append_assoc, readString_escape, ih]
      rfl

end AtomArray.Json
