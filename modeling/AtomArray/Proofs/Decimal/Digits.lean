import AtomArray.Proofs.Decimal.Numeral

/-! Integers as they are written: their digits are read back, and are a numeral on their own. -/

namespace AtomArray.Decimal

variable {ds : List Char} {n : Nat}

/-- Integers of 64 bits, with a sign or without one. -/
def Is64Bit (n : Int) : Prop := Int64.minValue.toInt ≤ n ∧ n < UInt64.size

namespace Is64Bit

theorem int64 (n : Int64) : Is64Bit n.toInt :=
  ⟨Int64.minValue_le_toInt n, Int.lt_of_le_of_lt (Int64.toInt_le n) (by decide)⟩

theorem uint64 (n : UInt64) : Is64Bit n.toNat :=
  ⟨Int.le_trans (by decide) (Int.natCast_nonneg _), Int.ofNat_lt.2 n.toNat_lt⟩

theorem uint32 (n : UInt32) : Is64Bit n.toNat := by
  have hlt : n.toNat < 2 ^ 32 := n.toNat_lt
  refine ⟨Int.le_trans (by decide) (Int.natCast_nonneg _), ?_⟩
  exact Int.ofNat_lt.2 (Nat.lt_trans hlt (by decide))

end Is64Bit

def digitValue (c : Char) : Nat := c.toNat - '0'.toNat

theorem digit?_of_isDigit {c : Char} (h : c.isDigit = true) : digit? c = some (digitValue c) :=
  if_pos h

theorem toNat_of_isDigit {c : Char} (h : c.isDigit = true) : 48 ≤ c.toNat ∧ c.toNat ≤ 57 := by
  simp only [Char.isDigit, Bool.and_eq_true, decide_eq_true_eq] at h
  exact ⟨UInt32.le_iff_toNat_le.1 h.1, UInt32.le_iff_toNat_le.1 h.2⟩

theorem digitValue_pos {c : Char} (h : c.isDigit = true) (hzero : c ≠ '0') : 0 < digitValue c := by
  have hne : c.toNat ≠ 48 := fun hc => hzero (Char.toNat_inj.1 hc)
  have hrange := toNat_of_isDigit h
  change 0 < c.toNat - 48
  omega

theorem spanDigits_of_digits (h : ∀ c ∈ ds, c.isDigit = true) :
    spanDigits ds = (ds.map digitValue, []) := by
  induction ds with
  | nil => rfl
  | cons c ds ih =>
      rw [List.forall_mem_cons] at h
      simp only [spanDigits, digit?_of_isDigit h.1, ih h.2, List.map_cons]

theorem isDigit_of_mem_toDigits {c : Char} (h : c ∈ Nat.toDigits 10 n) : c.isDigit = true :=
  Nat.isDigit_of_mem_toDigits (by decide) (by decide) h

theorem ofDigits_toDigits (n : Nat) : ofDigits ((Nat.toDigits 10 n).map digitValue) = n := by
  have hfold : ∀ (ds : List Char) (init : Nat),
      (ds.map digitValue).foldl (fun n d => n * 10 + d) init = Nat.ofDigitChars 10 ds init := by
    intro ds
    induction ds with
    | nil => exact fun init => rfl
    | cons c ds ih =>
        intro init
        rw [List.map_cons, List.foldl_cons, ih, Nat.mul_comm init 10]
        rfl
  rw [ofDigits, hfold, Nat.ofDigitChars_toDigits (by decide) (by decide)]

/-- Only zero is written with a zero in front. -/
theorem toDigits_cases (n : Nat) : n = 0 ∧ Nat.toDigits 10 n = ['0'] ∨
    ∃ c ds, Nat.toDigits 10 n = c :: ds ∧ c ≠ '0' := by
  induction n using Nat.strongRecOn with
  | ind n ih =>
      rcases Nat.lt_or_ge n 10 with hlt | hge
      · rw [Nat.toDigits_of_lt_base hlt]
        rcases Nat.eq_zero_or_pos n with rfl | hpos
        · exact .inl ⟨rfl, rfl⟩
        · refine .inr ⟨n.digitChar, [], rfl, ?_⟩
          interval_cases n <;> decide
      · rw [Nat.toDigits_of_base_le (by decide) hge]
        rcases ih (n / 10) (by omega) with ⟨hzero, -⟩ | ⟨c, ds, hds, hc⟩
        · omega
        · exact .inr ⟨c, ds ++ [(n % 10).digitChar], by rw [hds, List.cons_append], hc⟩

theorem exists_toDigits_eq_cons (n : Nat) :
    ∃ c ds, Nat.toDigits 10 n = c :: ds ∧ c.isDigit = true := by
  cases hds : Nat.toDigits 10 n with
  | nil => exact absurd hds Nat.toDigits_ne_nil
  | cons c ds => exact ⟨c, ds, rfl, isDigit_of_mem_toDigits (hds ▸ List.mem_cons_self)⟩

theorem ne_of_isDigit {c d : Char} (h : c.isDigit = true) (hd : d.isDigit = false) : c ≠ d := by
  rintro rfl
  rw [h] at hd
  cases hd

theorem spanSign_toDigits (n : Nat) :
    spanSign (Nat.toDigits 10 n) = (false, Nat.toDigits 10 n) := by
  obtain ⟨c, ds, hds, hc⟩ := exists_toDigits_eq_cons n
  rw [hds]
  exact spanSign_of_ne (ne_of_isDigit hc (by decide)) (ne_of_isDigit hc (by decide)) ds

/-- The characters of an integer: its digits, behind a minus sign if it is below zero. -/
theorem toList_toString (n : Int) : (toString n).toList =
    if n < 0 then '-' :: Nat.toDigits 10 n.natAbs else Nat.toDigits 10 n.natAbs := by
  cases n with
  | ofNat n =>
      have hnot : ¬ Int.ofNat n < 0 := Int.not_lt.2 (Int.natCast_nonneg n)
      rw [if_neg hnot]
      exact Nat.toList_repr
  | negSucc n =>
      rw [if_pos (Int.negSucc_lt_zero n)]
      change ("-" ++ (n + 1).repr).toList = _
      rw [String.toList_append, Nat.toList_repr]
      rfl

/-- An integer starts with a digit or a minus sign. -/
theorem exists_toString_eq_cons (n : Int) :
    ∃ c cs, (toString n).toList = c :: cs ∧ (c.isDigit = true ∨ c = '-') := by
  rw [toList_toString]
  split_ifs
  · exact ⟨'-', _, rfl, .inr rfl⟩
  · obtain ⟨c, ds, hds, hc⟩ := exists_toDigits_eq_cons n.natAbs
    exact ⟨c, ds, hds, .inl hc⟩

theorem spanSign_toString (n : Int) :
    spanSign (toString n).toList = (decide (n < 0), Nat.toDigits 10 n.natAbs) := by
  rw [toList_toString]
  by_cases hneg : n < 0
  · rw [if_pos hneg, decide_eq_true hneg]
    rfl
  · rw [if_neg hneg, decide_eq_false hneg, spanSign_toDigits]

/-- The numeral of an integer. -/
def numeralOf (n : Int) : Numeral :=
  ⟨decide (n < 0), (Nat.toDigits 10 n.natAbs).map digitValue, none, none⟩

theorem scan?_toString (n : Int) : Numeral.scan? (toString n).toList = some (numeralOf n, []) := by
  rw [Numeral.scan?_eq, spanSign_toString,
    spanDigits_of_digits fun c hc => isDigit_of_mem_toDigits hc]
  rfl

/-- A digit in base ten, and no digit where there is none. -/
theorem readNat?_of_digits (hne : ds ≠ []) (h : ∀ c ∈ ds, c.isDigit = true) :
    readNat? 10 ds = some (ofDigits (ds.map digitValue)) := by
  have hfold : ∀ init, ds.foldlM (fun n c =>
      if (if c.isDigit then c.toNat - '0'.toNat
        else if c.isAlpha then c.toLower.toNat - 'a'.toNat + 10 else 10) < 10 then
        some (n * 10 + if c.isDigit then c.toNat - '0'.toNat
          else if c.isAlpha then c.toLower.toNat - 'a'.toNat + 10 else 10)
      else none) init = some ((ds.map digitValue).foldl (fun n d => n * 10 + d) init) := by
    clear hne
    induction ds with
    | nil => exact fun init => rfl
    | cons c ds ih =>
        intro init
        rw [List.forall_mem_cons] at h
        have hlt : c.toNat - '0'.toNat < 10 := by
          have hrange := toNat_of_isDigit h.1
          change c.toNat - 48 < 10
          omega
        simp only [List.foldlM_cons, h.1, if_true, if_pos hlt]
        exact ih h.2 _
  rw [readNat?]
  dsimp only
  rw [if_neg hne]
  exact hfold 0

theorem readNat?_toDigits (n : Nat) : readNat? 10 (Nat.toDigits 10 n) = some n := by
  rw [readNat?_of_digits Nat.toDigits_ne_nil fun c hc => isDigit_of_mem_toDigits hc,
    ofDigits_toDigits]

end AtomArray.Decimal
