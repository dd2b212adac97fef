import AtomArray.Decimal.Style
import AtomArray.Proofs.Binary64.NotANumber
import AtomArray.Proofs.Decimal.Digits

/-! What the text of a finite double looks like: a digit, perhaps behind a minus sign, and then
digits and the marks of a numeral, with at least one mark that no integer has. -/

namespace AtomArray.Decimal

/-- Digits, the point, the sign of the exponent and its mark. -/
def IsNumeralChar (c : Char) : Prop := c.isDigit = true ∨ c ∈ ['.', 'e', '-', '+']

/-- The text of a double without its sign, told from that of an integer by some mark. -/
structure IsReal (cs : List Char) : Prop where
  chars : ∀ c ∈ cs, IsNumeralChar c
  head : ∃ d rest, cs = d :: rest ∧ d.isDigit = true
  marked : ∃ c ∈ cs, c = '.' ∨ c = 'e'

variable {ds cs : List Char} {s : Style}

/-- Digits, a mark, and further characters of a numeral. -/
theorem IsReal.of_mark {mark : Char} (hmark : mark = '.' ∨ mark = 'e') (hne : ds ≠ [])
    (hds : ∀ c ∈ ds, c.isDigit = true) (hcs : ∀ c ∈ cs, IsNumeralChar c) :
    IsReal (ds ++ mark :: cs) := by
  refine ⟨?_, ?_, mark, by simp, hmark⟩
  · intro c hc
    rcases List.mem_append.1 hc with hc | hc
    · exact .inl (hds c hc)
    · rcases List.mem_cons.1 hc with rfl | hc
      · exact .inr (by rcases hmark with rfl | rfl <;> decide)
      · exact hcs c hc
  · cases ds with
    | nil => exact absurd rfl hne
    | cons d ds => exact ⟨d, ds ++ mark :: cs, rfl, hds d List.mem_cons_self⟩

theorem isNumeralChar_of_digits (h : ∀ c ∈ ds, c.isDigit = true) : ∀ c ∈ ds, IsNumeralChar c :=
  fun c hc => .inl (h c hc)

theorem isDigit_of_mem_zeros {n : Nat} {c : Char} (h : c ∈ zeros n) : c.isDigit = true := by
  rw [List.eq_of_mem_replicate h]
  rfl

theorem isDigit_of_mem_append_zeros (h : ∀ c ∈ ds, c.isDigit = true) (n : Nat) :
    ∀ c ∈ ds ++ zeros n, c.isDigit = true :=
  List.forall_mem_append.2 ⟨h, fun _ => isDigit_of_mem_zeros⟩

theorem isReal_positional (hpoint : s.pointZero = true) (hne : ds ≠ [])
    (hds : ∀ c ∈ ds, c.isDigit = true) (k : Int) : IsReal (s.positional ds k) := by
  have hzero : ∀ c ∈ ['0'], c.isDigit = true := List.forall_mem_singleton.2 rfl
  unfold Style.positional
  split_ifs with hk hlength
  · have hreal := IsReal.of_mark (.inl rfl) (List.cons_ne_nil '0' []) hzero
      (List.forall_mem_append.2 ⟨fun c hc => .inl (isDigit_of_mem_zeros (n := (-k).toNat) hc),
        isNumeralChar_of_digits hds⟩)
    rwa [List.append_assoc]
  · exact IsReal.of_mark (.inl rfl) (List.append_ne_nil_of_left_ne_nil hne _)
      (isDigit_of_mem_append_zeros hds _) (isNumeralChar_of_digits hzero)
  · refine IsReal.of_mark (.inl rfl) ?_ (fun c hc => hds c (List.mem_of_mem_take hc))
      (isNumeralChar_of_digits fun c hc => hds c (List.mem_of_mem_drop hc))
    rw [Ne, List.take_eq_nil_iff]
    rintro (hnone | hnil)
    · omega
    · exact hne hnil

theorem isReal_scientific (hne : ds ≠ []) (hds : ∀ c ∈ ds, c.isDigit = true) (k : Int) :
    IsReal (s.scientific ds k) := by
  have hexponent : ∀ c ∈ (if k ≤ 0 then ['-'] else if s.exponentPlus then ['+'] else []) ++
      Nat.toDigits 10 (k - 1).natAbs, IsNumeralChar c := by
    refine List.forall_mem_append.2 ⟨?_, fun c hc => .inl (isDigit_of_mem_toDigits hc)⟩
    intro c hc
    right
    split_ifs at hc <;> simp_all
  unfold Style.scientific
  cases ds with
  | nil => exact absurd rfl hne
  | cons d ds =>
      obtain ⟨hd, hds⟩ := List.forall_mem_cons.1 hds
      have hone : ∀ c ∈ [d], c.isDigit = true := List.forall_mem_singleton.2 hd
      cases ds with
      | nil => exact IsReal.of_mark (.inr rfl) (List.cons_ne_nil d []) hone hexponent
      | cons e ds =>
          have htail := List.forall_mem_append.2 ⟨isNumeralChar_of_digits hds,
            List.forall_mem_cons.2 ⟨.inr (List.mem_cons_of_mem '.' List.mem_cons_self), hexponent⟩⟩
          have hreal := IsReal.of_mark (.inl rfl) (List.cons_ne_nil d []) hone htail
          simpa only [List.append_assoc, List.cons_append, List.nil_append] using hreal

theorem isReal_unsigned {x : Float} (hpoint : s.pointZero = true) (hx : x.isFinite = true) :
    IsReal (s.unsigned x) := by
  unfold Style.unsigned
  rw [(Binary64.not_nan_inf_of_finite hx).2, if_neg Bool.false_ne_true]
  split_ifs with hzero
  · exact isReal_positional hpoint (List.cons_ne_nil '0' []) (List.forall_mem_singleton.2 rfl) 1
  · have hne : Nat.toDigits 10 (shortest s.tie x).digits ≠ [] := Nat.toDigits_ne_nil
    have hds : ∀ c ∈ Nat.toDigits 10 (shortest s.tie x).digits, c.isDigit = true :=
      fun c hc => isDigit_of_mem_toDigits hc
    unfold Style.layout
    dsimp only
    split
    next => exact isReal_positional hpoint hne hds _
    next =>
      split_ifs
      · exact isReal_positional hpoint hne hds _
      · exact isReal_scientific hne hds _

/-- The text of a finite double is that of its size, perhaps behind a minus sign. -/
theorem toList_render {x : Float} (hx : x.isFinite = true) : (s.render x).toList =
    (if Binary64.isNegative x then ['-'] else []) ++ s.unsigned x := by
  rw [Style.render, (Binary64.not_nan_inf_of_finite hx).1, if_neg Bool.false_ne_true,
    String.toList_ofList]

/-- A finite double starts with a digit or a minus sign. -/
theorem exists_render_eq_cons {x : Float} (hpoint : s.pointZero = true) (hx : x.isFinite = true) :
    ∃ c cs, (s.render x).toList = c :: cs ∧ (c.isDigit = true ∨ c = '-') := by
  obtain ⟨d, ds, hds, hd⟩ := (isReal_unsigned hpoint hx).head
  rw [toList_render hx, hds]
  split_ifs
  · exact ⟨'-', _, rfl, .inr rfl⟩
  · exact ⟨d, ds, rfl, .inl hd⟩

end AtomArray.Decimal
