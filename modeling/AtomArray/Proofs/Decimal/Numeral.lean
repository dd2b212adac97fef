import AtomArray.Decimal.Numeral
import Mathlib

/-! Numerals at the front of a text: a numeral is read the same whatever stands behind it, as long
as that is no further part of it. -/

namespace AtomArray.Decimal

variable {cs ds rest : List Char}

/-- The text does not start with a character of a numeral. -/
def Stops (rest : List Char) : Prop :=
  ∀ c ∈ rest.head?, c.isDigit = false ∧ c ∉ ['.', 'e', 'E', '-', '+']

theorem stops_nil : Stops [] := by
  intro c hc
  cases hc

theorem stops_cons {c : Char} (hdigit : c.isDigit = false) (hmark : c ∉ ['.', 'e', 'E', '-', '+'])
    (rest : List Char) : Stops (c :: rest) := by
  rintro _ ⟨⟩
  exact ⟨hdigit, hmark⟩

theorem Stops.cons_iff {c : Char} : Stops (c :: rest) ↔
    c.isDigit = false ∧ c ≠ '.' ∧ c ≠ 'e' ∧ c ≠ 'E' ∧ c ≠ '-' ∧ c ≠ '+' := by
  simp [Stops]

theorem digit?_of_not_isDigit {c : Char} (h : c.isDigit = false) : digit? c = none := by
  rw [digit?, h]
  rfl

theorem spanSign_of_ne {c : Char} (hminus : c ≠ '-') (hplus : c ≠ '+') (cs : List Char) :
    spanSign (c :: cs) = (false, c :: cs) := by
  unfold spanSign
  split
  next heq => exact absurd (List.cons.inj heq).1 hminus
  next heq => exact absurd (List.cons.inj heq).1 hplus
  next => rfl

theorem spanSign_append (h : Stops rest) :
    spanSign (cs ++ rest) = ((spanSign cs).1, (spanSign cs).2 ++ rest) := by
  cases cs with
  | cons c cs =>
      by_cases hminus : c = '-'
      · subst hminus
        rfl
      · by_cases hplus : c = '+'
        · subst hplus
          rfl
        · rw [List.cons_append, spanSign_of_ne hminus hplus, spanSign_of_ne hminus hplus]
          rfl
  | nil =>
      cases rest with
      | nil => rfl
      | cons c rest =>
          obtain ⟨-, -, -, -, hminus, hplus⟩ := Stops.cons_iff.1 h
          exact spanSign_of_ne hminus hplus rest

theorem spanDigits_append (h : Stops rest) :
    spanDigits (cs ++ rest) = ((spanDigits cs).1, (spanDigits cs).2 ++ rest) := by
  induction cs with
  | cons c cs ih =>
      simp only [List.cons_append, spanDigits]
      cases digit? c with
      | none => rfl
      | some d => simp only [ih]
  | nil =>
      cases rest with
      | nil => rfl
      | cons c rest =>
          have hdigit := (Stops.cons_iff.1 h).1
          simp only [List.nil_append, spanDigits, digit?_of_not_isDigit hdigit]

theorem exponent?_append {e : Option Int} (h : exponent? cs = some (e, [])) (hstops : Stops rest) :
    exponent? (cs ++ rest) = some (e, rest) := by
  cases cs with
  | cons c cs =>
      by_cases hc : c = 'e' ∨ c = 'E'
      · simp only [List.cons_append, exponent?, if_pos hc, spanSign_append hstops,
          spanDigits_append hstops] at h ⊢
        cases hspan : spanDigits (spanSign cs).2 with
        | mk digits tail =>
            rw [hspan] at h
            cases digits with
            | nil => cases h
            | cons d digits =>
                simp only [Option.some.injEq, Prod.mk.injEq] at h ⊢
                exact ⟨h.1, by rw [h.2, List.nil_append]⟩
      · simp only [exponent?, if_neg hc] at h
        cases h
  | nil =>
      cases h
      cases rest with
      | nil => rfl
      | cons c rest =>
          obtain ⟨-, -, he, hE, -, -⟩ := Stops.cons_iff.1 hstops
          have hc : ¬ (c = 'e' ∨ c = 'E') := fun hor => hor.elim he hE
          simp only [List.nil_append, exponent?, if_neg hc]

/-- The digits behind a point, if there is one. -/
def spanFraction : List Char → Option (List Nat) × List Char
  | '.' :: rest => (some (spanDigits rest).1, (spanDigits rest).2)
  | cs => (none, cs)

theorem spanFraction_of_ne {c : Char} (h : c ≠ '.') (cs : List Char) :
    spanFraction (c :: cs) = (none, c :: cs) := by
  unfold spanFraction
  split
  next heq => exact absurd (List.cons.inj heq).1 h
  next => rfl

theorem spanFraction_append (h : Stops rest) :
    spanFraction (cs ++ rest) = ((spanFraction cs).1, (spanFraction cs).2 ++ rest) := by
  cases cs with
  | cons c cs =>
      by_cases hpoint : c = '.'
      · subst hpoint
        simp only [List.cons_append, spanFraction, spanDigits_append h]
      · rw [List.cons_append, spanFraction_of_ne hpoint, spanFraction_of_ne hpoint]
        rfl
  | nil =>
      cases rest with
      | nil => rfl
      | cons c rest => exact spanFraction_of_ne (Stops.cons_iff.1 h).2.1 rest

theorem Numeral.scan?_eq (cs : List Char) : scan? cs =
    let whole := spanDigits (spanSign cs).2
    let fraction := spanFraction whole.2
    (exponent? fraction.2).map fun (exponent, rest) =>
      (⟨(spanSign cs).1, whole.1, fraction.1, exponent⟩, rest) := by
  simp only [scan?]
  split
  next hpoint => simp only [hpoint, spanFraction]
  next hother =>
    have hnone : spanFraction (spanDigits (spanSign cs).2).2 =
        (none, (spanDigits (spanSign cs).2).2) := by
      unfold spanFraction
      split
      next hpoint => exact absurd hpoint (hother _)
      next => rfl
    rw [hnone]

theorem Numeral.scan?_append {n : Numeral} (h : scan? cs = some (n, [])) (hstops : Stops rest) :
    scan? (cs ++ rest) = some (n, rest) := by
  rw [scan?_eq] at h ⊢
  simp only [spanSign_append hstops, spanDigits_append hstops, spanFraction_append hstops] at h ⊢
  rw [Option.map_eq_some_iff] at h
  obtain ⟨⟨e, tail⟩, hexponent, hn⟩ := h
  obtain ⟨rfl, rfl⟩ := Prod.mk.inj hn
  rw [exponent?_append hexponent hstops]
  rfl

end AtomArray.Decimal
