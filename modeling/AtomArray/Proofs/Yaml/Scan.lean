import AtomArray.Proofs.Yaml.Scalars
import AtomArray.Yaml.Token

/-! Runs of the scan in pieces: what one token comes to, and blanks between tokens. -/

namespace AtomArray.Yaml

variable {c : Char} {cs rest : List Char} {place : Place} {k : Nat}

/-- No blank, no line break and no comment. -/
def isSolid (c : Char) : Bool := !([' ', '\n', '\t', '#', '\ufeff'].contains c)

/-- Nothing is to be skipped here. -/
def AtText (cs : List Char) : Prop := ∀ c ∈ cs.head?, isSolid c = true

theorem atText_cons (h : isSolid c = true) (cs : List Char) : AtText (c :: cs) := by
  rintro _ ⟨⟩
  exact h

theorem isSpace_of_isSolid (h : isSolid c = true) : isSpace c = false := by
  simp only [isSolid, List.contains_eq_mem, Bool.not_eq_true', decide_eq_false_iff_not,
    List.mem_cons, List.not_mem_nil, or_false, not_or] at h
  simp only [isSpace, isBlank, Bool.or_eq_false_iff, decide_eq_false_iff_not]
  exact ⟨⟨h.1, h.2.2.1⟩, h.2.1⟩

theorem isSolid_of_isSafe (h : isSafe c = true) : isSolid c = true := by
  simp only [isSolid, List.contains_eq_mem, Bool.not_eq_true', decide_eq_false_iff_not,
    List.mem_cons, List.not_mem_nil, or_false, not_or]
  exact ⟨ne_of_isSafe h rfl, ne_of_isSafe h rfl, ne_of_isSafe h rfl, ne_of_isSafe h rfl,
    ne_of_isSafe h rfl⟩

theorem IsPlain.atText (h : IsPlain cs) (rest : List Char) : AtText (cs ++ rest) := by
  obtain ⟨c, ds, rfl, -⟩ := h.head
  exact atText_cons (isSolid_of_isSafe (List.all_eq_true.1 h.safe c List.mem_cons_self)) _

theorem IsPlain.append_ne_nil (h : IsPlain cs) (rest : List Char) : cs ++ rest ≠ [] := by
  obtain ⟨c, ds, rfl, -⟩ := h.head
  exact List.cons_ne_nil c _

namespace Scan

/-- A run from the one scan ends as from the other, which is further on by at least a character for
each step between them. -/
def Passes (s t : Scan) : Prop :=
  ∃ k, k + t.rest.length ≤ s.rest.length ∧ ∀ n, s.run (n + k) = t.run n

theorem Passes.refl (s : Scan) : Passes s s := ⟨0, by omega, fun _ => rfl⟩

theorem Passes.trans {s t u : Scan} (h : Passes s t) (h' : Passes t u) : Passes s u := by
  obtain ⟨k, hk, hrun⟩ := h
  obtain ⟨l, hl, hrun'⟩ := h'
  refine ⟨l + k, by omega, fun n => ?_⟩
  rw [← Nat.add_assoc, hrun, hrun']

/-- Scans with the same view of what comes next run alike. -/
theorem Passes.of_skip {s t : Scan} (hs : s.skip.forgetLost? = t.skip.forgetLost?)
    (hlength : t.rest.length ≤ s.rest.length) : Passes s t := by
  refine ⟨0, by omega, fun n => ?_⟩
  cases n with
  | zero => rfl
  | succ n => rw [Nat.add_zero, run, run, hs]

theorem run_of_settled {s : Scan} (hs : s.skip.forgetLost? = some s) (n : Nat) :
    s.run (n + 1) =
      if s.rest.isEmpty then (s.unindent fun _ => true).forgetKey?.bind (some ·.tokens.toList)
      else (s.unindent (s.place.column < ·)).next?.bind fun t => t.run n := by
  rw [run, hs]
  rfl

/-- One token. -/
theorem Passes.of_next {s t : Scan} (hs : s.skip.forgetLost? = some s) (hne : s.rest ≠ [])
    (hnext : (s.unindent (s.place.column < ·)).next? = some t)
    (hlength : t.rest.length < s.rest.length) : Passes s t := by
  refine ⟨1, by omega, fun n => ?_⟩
  rw [run_of_settled hs, if_neg (List.isEmpty_iff.not.2 hne), hnext, Option.bind_some]

/-- The end of the text. -/
theorem Passes.run_eq {s t : Scan} (h : Passes s t) (hrest : t.rest = []) {ts : List Token}
    (ht : ∀ n, t.run (n + 1) = some ts) : s.run (s.rest.length + 1) = some ts := by
  obtain ⟨k, hk, hrun⟩ := h
  rw [hrest, List.length_nil] at hk
  obtain ⟨n, hn⟩ : ∃ n, s.rest.length + 1 = n + 1 + k := ⟨s.rest.length - k, by omega⟩
  rw [hn, hrun, ht]

/-! Blanks. -/

theorem skipSpace_of_atText {brackets fresh : Bool} (h : AtText cs) :
    skipSpace brackets false fresh place cs = (fresh, place, cs) := by
  cases cs with
  | nil => rfl
  | cons c cs =>
      have hsolid := h c rfl
      simp only [isSolid, List.contains_eq_mem, Bool.not_eq_true', decide_eq_false_iff_not,
        List.mem_cons, List.not_mem_nil, or_false, not_or] at hsolid
      obtain ⟨hblank, hbreak, htab, hcomment, hmark⟩ := hsolid
      rw [skipSpace]
      simp [hblank, hbreak, htab, hcomment, hmark]

theorem skipSpace_blanks {brackets fresh : Bool} (k : Nat) (place : Place) (cs : List Char) :
    skipSpace brackets false fresh place (List.replicate k ' ' ++ cs) =
      skipSpace brackets false fresh (place.right k) cs := by
  induction k generalizing place with
  | zero => rfl
  | succ k ih =>
      rw [List.replicate_succ, List.cons_append, skipSpace]
      change skipSpace brackets false fresh (place.right 1) _ = _
      rw [ih, right_right, Nat.add_comm 1]

theorem skipSpace_line {brackets fresh : Bool} (h : AtText cs) (k : Nat) (place : Place) :
    skipSpace brackets false fresh place ('\n' :: (List.replicate k ' ' ++ cs)) =
      (fresh || !brackets, ⟨place.line + 1, k, k⟩, cs) := by
  rw [skipSpace]
  change skipSpace brackets false (fresh || !brackets) (.lineStart (place.line + 1)) _ = _
  rw [skipSpace_blanks, skipSpace_of_atText h]
  simp only [Place.lineStart, Place.right, Nat.zero_add]

/-! Scans without key starts. -/

/-- A scan in some brackets, in which nothing waits for a colon. -/
def quiet (rest : List Char) (place : Place) (fresh : Bool) (brackets : Nat) (indents : List Nat)
    (tokens : List Token) : Scan :=
  ⟨rest, place, fresh, none, List.replicate brackets none, indents, tokens.toArray⟩

variable {fresh : Bool} {brackets : Nat} {indents : List Nat} {tokens : List Token}

theorem forgetLost?_quiet : (quiet rest place fresh brackets indents tokens).forgetLost? =
    some (quiet rest place fresh brackets indents tokens) := by
  have hnone : ∀ k ∈ none :: List.replicate brackets (none : Option KeyStart), k = none := by
    intro k hk
    rcases List.mem_cons.1 hk with rfl | hk
    · rfl
    · exact List.eq_of_mem_replicate hk
  have hany : ∀ p : KeyStart → Bool, ((none :: List.replicate brackets none).any
      fun k : Option KeyStart => k.any p) = false := by
    intro p
    refine List.any_eq_false.2 fun k hk => ?_
    rw [hnone k hk]
    exact Bool.false_ne_true
  unfold forgetLost? quiet
  dsimp only
  rw [if_neg (by rw [hany]; exact Bool.false_ne_true)]
  simp only [List.map_replicate, Option.filter_none]

theorem inBrackets_quiet : (quiet rest place fresh brackets indents tokens).inBrackets =
    decide (0 < brackets) := by
  cases brackets <;> rfl

theorem skip_eq {s : Scan} {fresh' : Bool} {place' : Place} {rest' : List Char}
    (h : skipSpace s.inBrackets false s.fresh s.place s.rest = (fresh', place', rest')) :
    s.skip = { s with fresh := fresh', place := place', rest := rest' } := by
  rw [skip, h]

theorem skip_quiet_eq {fresh' : Bool} {place' : Place} {rest' : List Char}
    (h : skipSpace (decide (0 < brackets)) false fresh place rest = (fresh', place', rest')) :
    (quiet rest place fresh brackets indents tokens).skip =
      quiet rest' place' fresh' brackets indents tokens := by
  rw [← inBrackets_quiet] at h
  exact skip_eq h

theorem skip_of_atText {s : Scan} (h : AtText s.rest) : s.skip = s := by
  rw [skip, skipSpace_of_atText h]

theorem settled_quiet (h : AtText rest) :
    (quiet rest place fresh brackets indents tokens).skip.forgetLost? =
      some (quiet rest place fresh brackets indents tokens) := by
  rw [skip_of_atText h, forgetLost?_quiet]

/-- At the end of the text, with no block open. -/
theorem run_quiet_nil {fresh : Bool} (n : Nat) :
    (quiet [] place fresh 0 [] tokens).run (n + 1) = some tokens := by
  have htext : AtText [] := by
    intro c hc
    cases hc
  rw [run_of_settled (settled_quiet htext)]
  simp [quiet, unindent, inBrackets, forgetKey?]

/-- A line break and the indentation behind it, after which a key may stand. -/
theorem passes_line (h : AtText rest) (k : Nat) :
    Passes (quiet ('\n' :: (List.replicate k ' ' ++ rest)) place fresh brackets indents tokens)
      (quiet rest ⟨place.line + 1, k, k⟩ (fresh || decide (brackets = 0)) brackets indents
        tokens) := by
  refine Passes.of_skip ?_ ?_
  · have hbrackets : (!decide (0 < brackets)) = decide (brackets = 0) := by
      cases brackets <;> rfl
    rw [settled_quiet h, skip_quiet_eq (skipSpace_line h k place), hbrackets, forgetLost?_quiet]
  · simp only [quiet, List.length_cons, List.length_append]
    omega

/-- A blank between two tokens of a line. -/
theorem passes_blank (h : AtText rest) :
    Passes (quiet (' ' :: rest) place fresh brackets indents tokens)
      (quiet rest (place.right 1) fresh brackets indents tokens) := by
  refine Passes.of_skip ?_ ?_
  · have hskip : skipSpace (decide (0 < brackets)) false fresh place (' ' :: rest) =
        (fresh, place.right 1, rest) :=
      (skipSpace_blanks 1 place rest).trans (skipSpace_of_atText h)
    rw [settled_quiet h, skip_quiet_eq hskip, forgetLost?_quiet]
  · simp only [quiet, List.length_cons]
    omega

/-! Tokens in the blocks that are open. -/

theorem unindent_of_head {s : Scan} {leaves : Nat → Bool}
    (h : ∀ i ∈ s.indents.head?, leaves i = false) : s.unindent leaves = s := by
  have htake : s.indents.takeWhile leaves = [] := by
    cases hI : s.indents with
    | nil => rfl
    | cons i I =>
        rw [hI] at h
        exact List.takeWhile_cons_of_neg (by rw [h i rfl]; exact Bool.false_ne_true)
  have hdrop : s.indents.dropWhile leaves = s.indents := by
    cases hI : s.indents with
    | nil => rfl
    | cons i I =>
        rw [hI] at h
        exact List.dropWhile_cons_of_neg (by rw [h i rfl]; exact Bool.false_ne_true)
  unfold unindent
  rw [htake, hdrop]
  split_ifs
  · rfl
  · simp only [List.length_nil, Array.replicate_zero, Array.append_empty]

theorem unindent_of_le {s : Scan} (h : ∀ i ∈ s.indents.head?, i ≤ s.place.column) :
    s.unindent (s.place.column < ·) = s :=
  unindent_of_head fun i hi => decide_eq_false (Nat.not_lt.2 (h i hi))

theorem passes_next {s : Scan} (htext : AtText rest) (hne : rest ≠ [])
    (hindents : ∀ i ∈ indents.head?, i ≤ place.column)
    (hnext : (quiet rest place fresh brackets indents tokens).next? = some s)
    (hlength : s.rest.length < rest.length) :
    Passes (quiet rest place fresh brackets indents tokens) s :=
  Passes.of_next (settled_quiet htext) hne
    ((congrArg next? (unindent_of_le hindents)).trans hnext) hlength

/-! Tokens that are texts. -/

theorem eq_minus_of_isIndicator (hc : isSafe c = true) (h : isIndicator c = true) : c = '-' := by
  rw [isIndicator, isBracketMark_of_isSafe hc, Bool.false_or, List.contains_eq_mem,
    decide_eq_true_iff] at h
  have hall : (!isSafe c || decide (c = '-')) = true := by
    refine (List.all_eq_true.1 ?_ : ∀ d ∈ _, (!isSafe d || decide (d = '-')) = true) c h
    rfl
  rwa [hc, Bool.not_true, Bool.false_or, decide_eq_true_iff] at hall

theorem startsPlain_of_isSafe (hc : isSafe c = true) (hdash : c = '-' → atSpace cs = false)
    (inBrackets : Bool) : startsPlain inBrackets (c :: cs) = true := by
  rw [startsPlain]
  split_ifs with hindicator
  · have hminus := eq_minus_of_isIndicator hc hindicator
    rw [hdash hminus, decide_eq_true hminus, Bool.true_or]
    rfl
  · rw [isSpace_of_isSafe hc]
    rfl

/-- A plain text starts here. -/
theorem next?_plain {s : Scan} (hrest : s.rest = c :: cs) (hc : isSafe c = true)
    (hdash : c = '-' → atSpace cs = false) (hmark : Unmarked s.place s.rest) :
    s.next? = do
      let s ← s.noteKey?
      return s.passed true (← readPlain s.inBrackets s.floor .none s.place s.rest) := by
  have hne : ∀ d : Char, isSafe d = false → c ≠ d := fun d hd => ne_of_isSafe hc hd
  have hstarts := startsPlain_of_isSafe hc hdash s.inBrackets
  have hminus : (decide (c = '-') && atSpace cs) = false := by
    by_cases h : c = '-'
    · rw [hdash h, Bool.and_false]
    · rw [decide_eq_false h, Bool.false_and]
  rw [next?, if_neg (by rw [hmark.atMark]; exact Bool.false_ne_true), hrest]
  split
  next heq => cases heq
  next heq => exact absurd (List.cons.inj heq).1 (hne _ rfl)
  next heq => exact absurd (List.cons.inj heq).1 (hne _ rfl)
  next heq => exact absurd (List.cons.inj heq).1 (hne _ rfl)
  next heq => exact absurd (List.cons.inj heq).1 (hne _ rfl)
  next heq => exact absurd (List.cons.inj heq).1 (hne _ rfl)
  next heq => exact absurd (List.cons.inj heq).1 (hne _ rfl)
  next heq => exact absurd (List.cons.inj heq).1 (hne _ rfl)
  next heq =>
    obtain ⟨rfl, rfl⟩ := List.cons.inj heq
    rw [hminus, decide_eq_false (hne '?' rfl), decide_eq_false (hne ':' rfl), hstarts]
    rfl

theorem next?_of_isPlain {s : Scan} (h : IsPlain cs) (hrest : s.rest = cs ++ rest)
    (hmark : Unmarked s.place cs) :
    s.next? = do
      let s ← s.noteKey?
      return s.passed true (← readPlain s.inBrackets s.floor .none s.place s.rest) := by
  have hsafe := h.safe
  obtain ⟨c, ds, rfl, hdash⟩ := h.head
  rw [List.all_cons, Bool.and_eq_true_iff] at hsafe
  refine next?_plain hrest hsafe.1 (fun hc => ?_) (by rw [hrest]; exact hmark)
  cases ds with
  | nil => exact absurd rfl (hdash hc)
  | cons d ds =>
      rw [List.all_cons, Bool.and_eq_true_iff] at hsafe
      exact isSpace_of_isSafe hsafe.2.1

/-! Keys. -/

/-- A scan behind a text that is a key if a colon comes next. -/
def keyed (rest : List Char) (start : Place) (width brackets : Nat) (required : Bool)
    (indents : List Nat) (tokens : List Token) (t : Token) : Scan :=
  ⟨rest, start.right width, false, some ⟨tokens.length, start, required⟩,
    List.replicate brackets none, indents, (tokens ++ [t]).toArray⟩

variable {start : Place} {width : Nat} {required : Bool} {t : Token}

theorem noteKey?_quiet : (quiet rest place true brackets indents tokens).noteKey? =
    some { quiet rest place true brackets indents tokens with
      key := some ⟨tokens.length, place,
        decide (brackets = 0) && decide (indents.head? = some place.column)⟩ } := by
  cases brackets <;> rfl

theorem settled_keyed (h : AtText rest) (hwidth : width ≤ 1024) :
    (keyed rest start width brackets required indents tokens t).skip.forgetLost? =
      some (keyed rest start width brackets required indents tokens t) := by
  have hreaches : KeyStart.reaches ⟨tokens.length, start, required⟩ (start.right width) = true := by
    simp only [KeyStart.reaches, Place.right, decide_true, Bool.true_and]
    exact decide_eq_true (Nat.add_le_add_left hwidth _)
  have hlost : ((some (⟨tokens.length, start, required⟩ : KeyStart) ::
      List.replicate brackets none).any fun k => k.any fun k =>
        k.required && !k.reaches (start.right width)) = false := by
    rw [List.any_cons, Option.any_some, hreaches, List.any_replicate]
    simp
  rw [skip_of_atText h]
  unfold forgetLost? keyed
  dsimp only
  rw [hlost, if_neg Bool.false_ne_true]
  simp only [Option.filter_some, hreaches, Bool.not_true, Bool.not_false, if_true,
    List.map_replicate, Option.filter_none]

theorem insertIdx_append {α : Type} (as bs : List α) (a : α) :
    (as ++ bs).insertIdx as.length a = as ++ a :: bs := by
  induction as with
  | nil => rfl
  | cons b as ih => rw [List.cons_append, List.length_cons, List.insertIdx_succ_cons, ih,
      List.cons_append]

theorem insertIdxIfInBounds_append (as bs : List Token) (a : Token) :
    (as ++ bs).toArray.insertIdxIfInBounds as.length a = (as ++ a :: bs).toArray := by
  rw [List.insertIdxIfInBounds_toArray, insertIdx_append]

end Scan
end AtomArray.Yaml
