import AtomArray.Proofs.Decimal.Shape
import AtomArray.Yaml

/-! What the plain texts of integers and doubles stand for. -/

namespace AtomArray.Yaml

open Decimal (IsReal IsNumeralChar digitValue spanSign)

variable {c : Char} {cs : List Char} {text : String}

/-- The text of a number starts with a digit or a minus sign, as none of the special texts does. -/
theorem not_special {specials : List String} (htext : text.toList = c :: cs)
    (hc : c.isDigit = true ∨ c = '-')
    (h : specials.all (fun s => s.toList.head?.all fun d => !(d.isDigit || d = '-')) = true) :
    specials.contains text = false := by
  rw [List.contains_eq_mem, decide_eq_false_iff_not]
  intro hmem
  have hhead := List.all_eq_true.1 h text hmem
  rw [htext, List.head?_cons, Option.all_some, Bool.not_eq_true', Bool.or_eq_false_iff,
    decide_eq_false_iff_not] at hhead
  rcases hc with hc | hc
  · rw [hc] at hhead
    cases hhead.1
  · exact hhead.2 hc

theorem isNullText_of_numeral (htext : text.toList = c :: cs) (hc : c.isDigit = true ∨ c = '-') :
    isNullText text = false := not_special htext hc rfl

theorem resolve_of_numeral (htext : text.toList = c :: cs) (hc : c.isDigit = true ∨ c = '-') :
    resolve text = match integerOf? text with
      | some n =>
        if Int64.minValue.toInt ≤ n ∧ n < UInt64.size then .integer n
        else if -Nat.pow 2 127 ≤ n ∧ n < Nat.pow 2 128 then .unreadable
        else realOrText text
      | none => realOrText text := by
  have hnull := isNullText_of_numeral htext hc
  have htrue : ["true", "True", "TRUE"].contains text = false := not_special htext hc rfl
  have hfalse : ["false", "False", "FALSE"].contains text = false :=
    not_special htext hc rfl
  rw [resolve, hnull, htrue, hfalse]
  rfl

/-! Integers. -/

theorem size?_toDigits (n : Nat) : size? (Nat.toDigits 10 n) = some n := by
  have hread := Decimal.readNat?_toDigits n
  have hdigits : ∀ c ∈ Nat.toDigits 10 n, c.isDigit = true := fun c hc =>
    Decimal.isDigit_of_mem_toDigits hc
  have hzero : hasNeedlessZero (Nat.toDigits 10 n) = false := by
    rcases Decimal.toDigits_cases n with ⟨-, hds⟩ | ⟨c, ds, hds, hc⟩
    · rw [hds]
      rfl
    · rw [hds]
      unfold hasNeedlessZero
      split
      next heq => exact absurd (List.cons.inj heq).1 hc
      next => rfl
  generalize Nat.toDigits 10 n = ds at *
  unfold size?
  split
  next => exact absurd (hdigits 'x' (by simp)) (by decide)
  next => exact absurd (hdigits 'o' (by simp)) (by decide)
  next => exact absurd (hdigits 'b' (by simp)) (by decide)
  next => rw [hzero, if_neg Bool.false_ne_true, hread]

theorem integerOf?_toString (n : Int) : integerOf? (toString n) = some n := by
  rw [integerOf?, Decimal.spanSign_toString]
  dsimp only
  rw [size?_toDigits]
  change some (if decide (n < 0) = true then -(n.natAbs : Int) else n.natAbs) = some n
  rw [Option.some.injEq]
  by_cases hneg : n < 0
  · rw [decide_eq_true hneg, if_pos rfl]
    omega
  · rw [decide_eq_false hneg, if_neg Bool.false_ne_true]
    omega

/-- An integer of 64 bits stands for itself. -/
theorem resolve_toString {n : Int} (h : Decimal.Is64Bit n) :
    resolve (toString n) = .integer n := by
  obtain ⟨c, cs, htext, hc⟩ := Decimal.exists_toString_eq_cons n
  rw [resolve_of_numeral htext hc, integerOf?_toString]
  exact if_pos h

theorem uint64?_toString (n : UInt64) :
    uint64? (.scalar true (toString (n.toNat : Int))) = some n := by
  have hnotNeg : ¬ (n.toNat : Int) < 0 := Int.not_lt.2 (Int.natCast_nonneg _)
  have hhead : (toString (n.toNat : Int)).toList.head? ≠ some '-' := by
    rw [Decimal.toList_toString, if_neg hnotNeg]
    obtain ⟨c, ds, hds, hc⟩ := Decimal.exists_toDigits_eq_cons (n.toNat : Int).natAbs
    rw [hds, List.head?_cons, Ne, Option.some.injEq]
    exact Decimal.ne_of_isDigit hc rfl
  rw [uint64?, if_neg hhead, integerOf?_toString]
  dsimp only
  rw [if_pos (Decimal.Is64Bit.uint64 n).2, Int.toNat_natCast, UInt64.ofNat_toNat]

/-! Doubles. -/

/-- A character that is no digit of the base spoils a number. -/
theorem readNat?_eq_none (hc : c ∈ cs) (h : c = '.' ∨ c = 'e') : Decimal.readNat? 10 cs = none := by
  have hne : cs ≠ [] := List.ne_nil_of_mem hc
  have hfold : ∀ init, cs.foldlM (fun n c =>
      if (if c.isDigit then c.toNat - '0'.toNat
        else if c.isAlpha then c.toLower.toNat - 'a'.toNat + 10 else 10) < 10 then
        some (n * 10 + if c.isDigit then c.toNat - '0'.toNat
          else if c.isAlpha then c.toLower.toNat - 'a'.toNat + 10 else 10)
      else none) init = none := by
    clear hne
    induction cs with
    | nil => cases hc
    | cons d ds ih =>
        intro init
        rw [List.foldlM_cons]
        rcases List.mem_cons.1 hc with rfl | hc
        · rcases h with rfl | rfl <;> rfl
        · split_ifs <;> first | rfl | exact ih hc _
  rw [Decimal.readNat?]
  dsimp only
  rw [if_neg hne]
  exact hfold 0

theorem hasNeedlessZero_of_isReal (h : IsReal cs) : hasNeedlessZero cs = false := by
  obtain ⟨c, hc, hmark⟩ := h.marked
  unfold hasNeedlessZero
  split
  next d ds =>
    have hmem : c ∈ d :: ds := by
      rcases List.mem_cons.1 hc with rfl | hc
      · rcases hmark with hmark | hmark <;> cases hmark
      · exact hc
    refine List.all_eq_false.2 ⟨c, hmem, ?_⟩
    rcases hmark with rfl | rfl <;> decide
  next => rfl

theorem size?_of_isReal (h : IsReal cs) : size? cs = none := by
  have hx : ¬ IsNumeralChar 'x' := by rintro (h | h) <;> revert h <;> decide
  have ho : ¬ IsNumeralChar 'o' := by rintro (h | h) <;> revert h <;> decide
  have hb : ¬ IsNumeralChar 'b' := by rintro (h | h) <;> revert h <;> decide
  have hzero := hasNeedlessZero_of_isReal h
  obtain ⟨c, hc, hmark⟩ := h.marked
  have hread := readNat?_eq_none hc hmark
  unfold size?
  split
  next => exact absurd (h.chars 'x' (by simp)) hx
  next => exact absurd (h.chars 'o' (by simp)) ho
  next => exact absurd (h.chars 'b' (by simp)) hb
  next => rw [hzero, if_neg Bool.false_ne_true, hread]

/-- The text that a style gives to the double is read as that double. -/
def Keeps (s : Decimal.Style) (x : Float) : Prop := floatOf? (s.render x) = some x

instance (s : Decimal.Style) (x : Float) : Decidable (Keeps s x) :=
  inferInstanceAs (Decidable (floatOf? (s.render x) = some x))

variable {s : Decimal.Style} {x : Float}

theorem spanSign_render (hpoint : s.pointZero = true) (hx : x.isFinite = true) :
    spanSign (s.render x).toList = (Binary64.isNegative x, s.unsigned x) := by
  obtain ⟨d, ds, hds, hd⟩ := (Decimal.isReal_unsigned hpoint hx).head
  rw [Decimal.toList_render hx]
  cases Binary64.isNegative x with
  | true => rfl
  | false =>
      rw [if_neg Bool.false_ne_true, List.nil_append, hds]
      exact Decimal.spanSign_of_ne (Decimal.ne_of_isDigit hd rfl) (Decimal.ne_of_isDigit hd rfl) ds

/-- A finite double that keeps its value stands for itself, and for no integer. -/
theorem resolve_render (hpoint : s.pointZero = true) (hx : x.isFinite = true) (h : Keeps s x) :
    resolve (s.render x) = .real x := by
  have hreal := Decimal.isReal_unsigned hpoint hx
  have hsign := spanSign_render hpoint hx
  obtain ⟨c, cs, htext, hc⟩ := Decimal.exists_render_eq_cons hpoint hx
  have hinteger : integerOf? (s.render x) = none := by
    rw [integerOf?, hsign]
    dsimp only
    rw [size?_of_isReal hreal]
    rfl
  rw [resolve_of_numeral htext hc, hinteger]
  dsimp only
  rw [realOrText, hsign]
  dsimp only
  rw [hasNeedlessZero_of_isReal hreal, if_neg Bool.false_ne_true, h]

end AtomArray.Yaml
