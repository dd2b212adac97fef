import AtomArray.Proofs.Decimal.Shape
import AtomArray.Yaml.Scalar

/-! Reading plain texts of words and numbers, and quoted ones: where they end, and that nothing in
them ends them before. -/

namespace AtomArray.Yaml

variable {c : Char} {cs content rest : List Char} {place : Place} {brackets : Bool} {k floor : Nat}

/-- The characters of words and numbers, none of which means anything else. -/
def isSafe (c : Char) : Bool := c.isLower || c.isDigit || ['_', '.', '-', '+'].contains c

theorem ne_of_isSafe {d : Char} (h : isSafe c = true) (hd : isSafe d = false) : c ≠ d := by
  rintro rfl
  rw [h] at hd
  cases hd

theorem isSpace_of_isSafe (h : isSafe c = true) : isSpace c = false := by
  simp only [isSpace, isBlank, Bool.or_eq_false_iff, decide_eq_false_iff_not]
  exact ⟨⟨ne_of_isSafe h rfl, ne_of_isSafe h rfl⟩, ne_of_isSafe h rfl⟩

theorem isBracketMark_of_isSafe (h : isSafe c = true) : isBracketMark c = false := by
  simp only [isBracketMark, List.contains_eq_mem, decide_eq_false_iff_not, List.mem_cons,
    List.not_mem_nil, or_false, not_or]
  exact ⟨ne_of_isSafe h rfl, ne_of_isSafe h rfl, ne_of_isSafe h rfl, ne_of_isSafe h rfl,
    ne_of_isSafe h rfl⟩

theorem toNat_of_isSafe (h : isSafe c = true) : 32 < c.toNat ∧ c.toNat < 127 := by
  rcases Bool.or_eq_true_iff.1 h with h | h
  · rcases Bool.or_eq_true_iff.1 h with h | h
    · simp only [Char.isLower, Bool.and_eq_true, decide_eq_true_eq] at h
      have hlow : 97 ≤ c.toNat := UInt32.le_iff_toNat_le.1 h.1
      have hhigh : c.toNat ≤ 122 := UInt32.le_iff_toNat_le.1 h.2
      omega
    · have hdigit := Decimal.toNat_of_isDigit h
      omega
  · rw [List.contains_eq_mem, decide_eq_true_iff] at h
    simp only [List.mem_cons, List.not_mem_nil, or_false] at h
    rcases h with rfl | rfl | rfl | rfl <;> decide

theorem after_of_isSafe (h : isSafe c = true) (place : Place) : place.after c = place.right 1 := by
  have hne : c ≠ '\n' := ne_of_isSafe h rfl
  have hsize : c.utf8Size = 1 := Char.utf8Size_eq_one_iff.2 (by
    have hlt := (toNat_of_isSafe h).2
    exact UInt32.le_iff_toNat_le.2 (by change c.toNat ≤ 127; omega))
  rw [Place.after, if_neg hne, hsize, Place.right]

theorem right_right (place : Place) (m n : Nat) :
    (place.right m).right n = place.right (m + n) := by
  simp only [Place.right, Nat.add_assoc]

theorem onto_onto (front back : List Char) (r : Reading) :
    (r.onto back).onto front = r.onto (front ++ back) := by
  simp only [Reading.onto, List.append_assoc]

/-- Not at the start of a line, or not at three dashes or dots. -/
def Unmarked (place : Place) (cs : List Char) : Prop :=
  place.column ≠ 0 ∨ ∀ c ∈ cs.head?, c ≠ '-' ∧ c ≠ '.'

theorem unmarked_right (place : Place) (n : Nat) (cs : List Char) :
    Unmarked (place.right (n + 1)) cs := .inl (Nat.succ_ne_zero _)

theorem Unmarked.atMark (h : Unmarked place cs) :
    (decide (place.column = 0) && atMark cs) = false := by
  rcases h with h | h
  · rw [decide_eq_false h, Bool.false_and]
  · have hmark : Yaml.atMark cs = false := by
      unfold Yaml.atMark
      split
      next => exact absurd rfl (h '-' rfl).1
      next => exact absurd rfl (h '.' rfl).2
      next => rfl
    rw [hmark, Bool.and_false]

theorem readPlain_cons (hc : isSafe c = true) (hmark : Unmarked place (c :: rest)) :
    readPlain brackets floor .none place (c :: rest) =
      (readPlain brackets floor .none (place.right 1) rest).map (.onto [c]) := by
  have hcolon : c ≠ ':' := ne_of_isSafe hc rfl
  have hends : endsPlain brackets floor .none place c rest = false := by
    rw [endsPlain, decide_eq_false hcolon, isBracketMark_of_isSafe hc, hmark.atMark,
      Bool.and_false]
    rfl
  rw [readPlain, isSpace_of_isSafe hc, hends, decide_eq_false hcolon, after_of_isSafe hc]
  simp only [Bool.false_eq_true, if_false, Bool.and_false, Bool.false_and]
  rfl

theorem readPlain_append (hcs : cs.all isSafe = true) (hmark : Unmarked place cs) :
    readPlain brackets floor .none place (cs ++ rest) =
      (readPlain brackets floor .none (place.right cs.length) rest).map (.onto cs) := by
  induction cs generalizing place with
  | nil =>
      have hright : place.right 0 = place := rfl
      rw [List.nil_append, List.length_nil, hright]
      cases readPlain brackets floor .none place rest <;> rfl
  | cons c cs ih =>
      rw [List.all_cons, Bool.and_eq_true_iff] at hcs
      have hfront : Unmarked place (c :: (cs ++ rest)) := hmark
      rw [List.cons_append, readPlain_cons hcs.1 hfront,
        ih hcs.2 (unmarked_right place 0 _), right_right, Option.map_map, List.length_cons,
        Nat.add_comm 1]
      refine congrFun (congrArg Option.map ?_) _
      funext r
      exact onto_onto [c] cs r

/-! Whole plain texts. -/

/-- A text that can stand without quotes: a minus sign is not all of it. -/
structure IsPlain (cs : List Char) : Prop where
  safe : cs.all isSafe = true
  head : ∃ c ds, cs = c :: ds ∧ (c = '-' → ds ≠ [])

theorem isSafe_of_isNumeralChar (h : Decimal.IsNumeralChar c) : isSafe c = true := by
  rcases h with hdigit | hmark
  · rw [isSafe, hdigit, Bool.or_true, Bool.true_or]
  · simp only [List.mem_cons, List.not_mem_nil, or_false] at hmark
    rcases hmark with rfl | rfl | rfl | rfl <;> rfl

theorem isPlain_signed {ds : List Char} (h : ∀ c ∈ ds, Decimal.IsNumeralChar c)
    (hhead : ∃ d rest, ds = d :: rest ∧ d.isDigit = true) (negative : Bool) :
    IsPlain ((if negative then ['-'] else []) ++ ds) := by
  have hsafe : ds.all isSafe = true :=
    List.all_eq_true.2 fun c hc => isSafe_of_isNumeralChar (h c hc)
  obtain ⟨d, rest, rfl, hd⟩ := hhead
  cases negative with
  | true => exact ⟨hsafe, '-', d :: rest, rfl, fun _ => List.cons_ne_nil d rest⟩
  | false =>
      refine ⟨hsafe, d, rest, rfl, fun hminus => ?_⟩
      rw [hminus] at hd
      cases hd

theorem isPlain_toString (n : Int) : IsPlain (toString n).toList := by
  obtain ⟨d, ds, hds, hd⟩ := Decimal.exists_toDigits_eq_cons n.natAbs
  have hplain := isPlain_signed (Decimal.isNumeralChar_of_digits fun c hc =>
    Decimal.isDigit_of_mem_toDigits hc) ⟨d, ds, hds, hd⟩ (decide (n < 0))
  rw [Decimal.toList_toString]
  by_cases hn : n < 0
  · rw [decide_eq_true hn] at hplain
    rwa [if_pos hn]
  · rw [decide_eq_false hn] at hplain
    rwa [if_neg hn]

theorem isPlain_render {style : Decimal.Style} {x : Float} (hpoint : style.pointZero = true)
    (hx : x.isFinite = true) : IsPlain (style.render x).toList := by
  have hreal := Decimal.isReal_unsigned hpoint hx
  rw [Decimal.toList_render hx]
  exact isPlain_signed hreal.chars hreal.head _

/-! Ends of plain texts. -/

theorem readPlain_colon (h : atSpace rest = true) :
    readPlain false floor .none place (':' :: rest) =
      some ⟨[], false, place, ':' :: rest⟩ := by
  have hends : endsPlain false floor .none place ':' rest = true := by
    rw [endsPlain, h]
    rfl
  rw [readPlain, if_neg (by decide), hends]
  rfl

theorem readPlain_comma (rest : List Char) :
    readPlain true floor .none place (',' :: rest) = some ⟨[], false, place, ',' :: rest⟩ := by
  rw [readPlain, if_neg (by decide)]
  rfl

/-- What ends a plain text on a new line: nothing more, in brackets a mark of theirs, and elsewhere
anything left of the floor. -/
def EndsLine (brackets : Bool) (floor column : Nat) (content : List Char) : Prop :=
  ∀ c ∈ content.head?, isSpace c = false ∧
    (brackets && isBracketMark c || !brackets && decide (column < floor)) = true

theorem readPlain_indented (h : EndsLine brackets floor (place.column + k) content) :
    readPlain brackets floor (.breaks false 0) place (List.replicate k ' ' ++ content) =
      some ⟨[], true, place.right k, content⟩ := by
  induction k generalizing place with
  | zero =>
      cases content with
      | nil => rfl
      | cons c rest =>
          obtain ⟨hspace, hends⟩ := h c rfl
          have hends' : endsPlain brackets floor (.breaks false 0) place c rest = true := by
            rw [endsPlain]
            rcases Bool.or_eq_true_iff.1 hends with hmark | hcolumn
            · rw [hmark, Bool.or_true, Bool.true_or, Bool.true_or]
            · have hgap : (!(Gap.breaks false 0).isNone) = true := rfl
              rw [Nat.add_zero] at hcolumn
              rw [hcolumn, Bool.or_true, hgap, Bool.and_true, Bool.or_true]
          rw [List.replicate_zero, List.nil_append, readPlain, hspace, hends']
          rfl
  | succ k ih =>
      have hspace : isSpace ' ' = true := rfl
      rw [List.replicate_succ, List.cons_append, readPlain, hspace]
      change readPlain brackets floor (.breaks false 0) (place.right 1) _ = _
      have hshift : (place.right 1).column + k = place.column + (k + 1) := by
        simp only [Place.right]
        omega
      rw [ih (by rwa [hshift]), right_right, Nat.add_comm 1]

/-- A plain text takes the line break and the indentation behind it. -/
theorem readPlain_break (h : EndsLine brackets floor k content) :
    readPlain brackets floor .none place ('\n' :: (List.replicate k ' ' ++ content)) =
      some ⟨[], true, ⟨place.line + 1, k, k⟩, content⟩ := by
  have hspace : isSpace '\n' = true := rfl
  rw [readPlain, hspace]
  change readPlain brackets floor (.breaks false 0) (.lineStart (place.line + 1)) _ = _
  rw [readPlain_indented (by simpa [Place.lineStart] using h)]
  simp only [Place.lineStart, Place.right, Nat.zero_add]

/-! Quoted texts. -/

theorem readDouble_cons (hc : isSafe c = true) (rest : List Char) :
    readDouble 0 .none place (c :: rest) =
      (readDouble 0 .none (place.right 1) rest).map (.onto [c]) := by
  rw [readDouble]
  · rw [isSpace_of_isSafe hc, if_neg Bool.false_ne_true, after_of_isSafe hc]
    rfl
  · exact ne_of_isSafe hc rfl
  · exact fun _ h => absurd h (ne_of_isSafe hc rfl)
  · exact fun _ _ h => absurd h (ne_of_isSafe hc rfl)
  · exact fun h => absurd h (ne_of_isSafe hc rfl)

theorem readDouble_quote (hcs : cs.all isSafe = true) (rest : List Char) :
    readDouble 0 .none place (cs ++ '"' :: rest) =
      some ⟨cs, false, place.right (cs.length + 1), rest⟩ := by
  induction cs generalizing place with
  | nil => rfl
  | cons c cs ih =>
      rw [List.all_cons, Bool.and_eq_true_iff] at hcs
      rw [List.cons_append, readDouble_cons hcs.1, ih hcs.2, right_right, List.length_cons,
        Nat.add_comm 1]
      rfl

end AtomArray.Yaml
