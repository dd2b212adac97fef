import AtomArray.Proofs.Json.Legible
import AtomArray.Proofs.Json.Spacing

/-! Reading what was written: any value that has a text of its own is read back from it, on one line
or on many, except that doubles without a numeral have become null. -/

namespace AtomArray.Json

open Data (Key)
open Decimal (Is64Bit Stops stops_cons)

/-! Blanks before a value. -/

variable {c : Char} {cs rest blanks : List Char} {n : Nat}

theorem skipBlanks_append (h : AreBlank blanks) (cs : List Char) :
    skipBlanks (blanks ++ cs) = skipBlanks cs := by
  refine List.dropWhile_append_of_pos fun c hc => ?_
  rcases h c hc with rfl | rfl <;> rfl

theorem skipBlanks_cons (h : c ∉ [' ', '\n', '\t', '\r']) (cs : List Char) :
    skipBlanks (c :: cs) = c :: cs := by
  refine List.dropWhile_cons_of_neg ?_
  simpa [not_or, and_assoc] using h

theorem readValue_skipBlanks (h : AreBlank blanks) (n : Nat) (cs : List Char) :
    readValue n (blanks ++ cs) = readValue n cs := by
  cases n with
  | zero => rfl
  | succ n => rw [readValue, readValue, skipBlanks_append h]

theorem stops_append (h : AreBlank blanks) (hstops : Stops rest) : Stops (blanks ++ rest) := by
  cases blanks with
  | nil => exact hstops
  | cons c blanks =>
      rcases h c List.mem_cons_self with rfl | rfl
      · exact stops_cons rfl (by decide) _
      · exact stops_cons rfl (by decide) _

theorem readValue_numeral (h : c.isDigit = true ∨ c = '-') (n : Nat) (cs : List Char) :
    readValue (n + 1) (c :: cs) = readNumber (c :: cs) := by
  have hne : ∀ d : Char, d.isDigit = false → d ≠ '-' → c ≠ d := by
    rintro d hdigit hminus rfl
    exact h.elim (fun hc => Decimal.ne_of_isDigit hc hdigit rfl) hminus
  have hblank : c ∉ [' ', '\n', '\t', '\r'] := by
    simp only [List.mem_cons, List.not_mem_nil, or_false, not_or]
    exact ⟨hne _ rfl (by decide), hne _ rfl (by decide), hne _ rfl (by decide),
      hne _ rfl (by decide)⟩
  rw [readValue, skipBlanks_cons hblank]
  split
  next heq => exact absurd (List.cons.inj heq).1 (hne _ rfl (by decide))
  next heq => exact absurd (List.cons.inj heq).1 (hne _ rfl (by decide))
  next heq => exact absurd (List.cons.inj heq).1 (hne _ rfl (by decide))
  next heq => exact absurd (List.cons.inj heq).1 (hne _ rfl (by decide))
  next heq => exact absurd (List.cons.inj heq).1 (hne _ rfl (by decide))
  next heq => exact absurd (List.cons.inj heq).1 (hne _ rfl (by decide))
  next heq => exact absurd (List.cons.inj heq).1 (hne _ rfl (by decide))
  next => rfl

/-! The front of a text tells what kind of value it is. -/

variable {s : Spacing} {v : Data}

theorem exists_number_eq_cons {x : Float} (hx : x.isFinite = true) :
    ∃ c cs, number x = c :: cs ∧ (c.isDigit = true ∨ c = '-') := by
  rw [number, if_pos hx]
  exact Decimal.exists_render_eq_cons rfl hx

/-- No value starts with a blank or a closing bracket. -/
def Opens (c : Char) : Prop := c ∉ [' ', '\n', '\t', '\r'] ∧ c ≠ ']'

theorem opens_numeral {c : Char} (h : c.isDigit = true ∨ c = '-') : Opens c := by
  rcases h with h | rfl
  · refine ⟨?_, Decimal.ne_of_isDigit h rfl⟩
    simp only [List.mem_cons, List.not_mem_nil, or_false, not_or]
    exact ⟨Decimal.ne_of_isDigit h rfl, Decimal.ne_of_isDigit h rfl, Decimal.ne_of_isDigit h rfl,
      Decimal.ne_of_isDigit h rfl⟩
  · exact ⟨by decide, by decide⟩

theorem exists_chars_eq_cons (s : Spacing) (depth : Nat) (v : Data) :
    ∃ c cs, s.chars depth v = c :: cs ∧ Opens c := by
  have hnull : ∃ c cs, ['n', 'u', 'l', 'l'] = c :: cs ∧ Opens c :=
    ⟨'n', _, rfl, by decide, by decide⟩
  cases v with
  | null => exact hnull
  | unreadable => exact hnull
  | bool b => cases b <;> exact ⟨_, _, rfl, by decide, by decide⟩
  | integer n =>
      obtain ⟨c, cs, hcs, hc⟩ := Decimal.exists_toString_eq_cons n
      exact ⟨c, cs, hcs, opens_numeral hc⟩
  | real x =>
      cases hx : x.isFinite with
      | true =>
          obtain ⟨c, cs, hcs, hc⟩ := exists_number_eq_cons hx
          exact ⟨c, cs, hcs, opens_numeral hc⟩
      | false =>
          change ∃ c cs, number x = c :: cs ∧ Opens c
          rw [number, hx, if_neg Bool.false_ne_true]
          exact hnull
  | text t => exact ⟨'"', _, rfl, by decide, by decide⟩
  | list items => cases items <;> exact ⟨'[', _, rfl, by decide, by decide⟩
  | record members => cases members <;> exact ⟨'\x7b', _, rfl, by decide, by decide⟩

/-! A whole value. -/

/-- Enough fuel reads the value from its text and leaves what stands behind it. -/
def Reads (s : Spacing) (v : Data) : Prop :=
  ∀ depth n rest, Stops rest → 2 * (s.chars depth v).length ≤ n →
    readValue n (s.chars depth v ++ rest) = some (written v, rest)

theorem reads_of_step (hscalar : ∀ depth, s.chars depth v = scalar v)
    (h : ∀ n rest, Stops rest → readValue (n + 1) (scalar v ++ rest) = some (written v, rest)) :
    Reads s v := by
  intro depth n rest hstops hn
  obtain ⟨c, cs, hcs, -⟩ := exists_chars_eq_cons s depth v
  rw [hcs, List.length_cons] at hn
  obtain ⟨n, rfl⟩ : ∃ m, n = m + 1 := ⟨n - 1, by omega⟩
  rw [hscalar]
  exact h n rest hstops

theorem reads_integer {n : Int} (h : Is64Bit n) : Reads s (.integer n) := by
  refine reads_of_step (fun _ => rfl) fun m rest hstops => ?_
  obtain ⟨c, cs, hcs, hc⟩ := Decimal.exists_toString_eq_cons n
  have hread := readNumber_append (readNumber_toString h) hstops
  rw [hcs] at hread
  rw [scalar, hcs, List.cons_append, readValue_numeral hc]
  exact hread

theorem readValue_null (n : Nat) (rest : List Char) :
    readValue (n + 1) (['n', 'u', 'l', 'l'] ++ rest) = some (.null, rest) := rfl

theorem reads_real {x : Float} (h : x.isFinite = true → Keeps x) : Reads s (.real x) := by
  refine reads_of_step (fun _ => rfl) fun m rest hstops => ?_
  rw [scalar, written]
  cases hx : x.isFinite with
  | true =>
      obtain ⟨c, cs, hcs, hc⟩ := exists_number_eq_cons hx
      have hread := readNumber_append (h hx) hstops
      rw [hcs] at hread
      rw [hcs, List.cons_append, readValue_numeral hc]
      exact hread
  | false =>
      rw [number, hx, if_neg Bool.false_ne_true]
      exact readValue_null m rest

theorem readValue_quote (n : Nat) (cs : List Char) : readValue (n + 1) ('"' :: cs) =
    (readString none cs).map fun (content, rest) =>
      (match content with
        | some cs => .text (String.ofList cs)
        | none => .unreadable, rest) := rfl

theorem readString_append (t : String) (rest : List Char) :
    readString none (t.toList.flatMap escape ++ ['"'] ++ rest) = some (some t.toList, rest) := by
  rw [List.append_assoc, List.singleton_append, readString_quote]

theorem reads_text (t : String) : Reads s (.text t) := by
  refine reads_of_step (fun _ => rfl) fun m rest _ => ?_
  rw [scalar, quote, List.cons_append, List.cons_append, readValue_quote, readString_append,
    Option.map_some]
  dsimp only
  rw [String.ofList_toList]
  rfl

theorem stops_comma (rest : List Char) : Stops (',' :: rest) := stops_cons rfl (by decide) rest

theorem stops_bracket (h : AreBlank blanks) (rest : List Char) : Stops (blanks ++ ']' :: rest) :=
  stops_append h (stops_cons rfl (by decide) rest)

theorem stops_brace (h : AreBlank blanks) (rest : List Char) : Stops (blanks ++ '\x7d' :: rest) :=
  stops_append h (stops_cons rfl (by decide) rest)

theorem Reads.readValue_blanks {depth : Nat} (h : Reads s v) (hblank : AreBlank blanks)
    (hstops : Stops rest) (hn : 2 * (s.chars depth v).length ≤ n) :
    readValue n (blanks ++ (s.chars depth v ++ rest)) = some (written v, rest) := by
  rw [readValue_skipBlanks hblank, h depth n rest hstops hn]

theorem readItems_comma {item : Data} (h : readValue n cs = some (item, ',' :: rest)) :
    readItems (n + 1) cs = (readItems n rest).map fun (items, rest) => (item :: items, rest) := by
  rw [readItems, h]
  rfl

theorem readItems_close {item : Data} (hblank : AreBlank blanks)
    (h : readValue n cs = some (item, blanks ++ ']' :: rest)) :
    readItems (n + 1) cs = some ([item], rest) := by
  rw [readItems, h]
  dsimp only
  rw [skipBlanks_append hblank]
  rfl

/-- The items of a list up to its closing bracket. -/
theorem readItems_items {values : List Data} (hne : values ≠ []) (h : ∀ v ∈ values, Reads s v)
    (depth : Nat) (hblank : AreBlank blanks) (hn : 2 * (s.items depth values).length < n)
    (rest : List Char) :
    readItems n (s.items depth values ++ (blanks ++ ']' :: rest)) =
      some (writtenItems values, rest) := by
  induction values generalizing n with
  | nil => exact absurd rfl hne
  | cons item values ih =>
      obtain ⟨n, rfl⟩ : ∃ m, n = m + 1 := ⟨n - 1, by omega⟩
      rw [List.forall_mem_cons] at h
      cases values with
      | nil =>
          simp only [Spacing.items, List.length_append] at hn
          rw [Spacing.items, List.append_assoc]
          exact readItems_close hblank
            (h.1.readValue_blanks (s.line_blank depth) (stops_bracket hblank rest) (by omega))
      | cons next values =>
          simp only [Spacing.items_cons_cons, List.length_append, List.length_cons] at hn
          rw [Spacing.items_cons_cons, List.append_assoc, List.append_assoc, List.cons_append,
            readItems_comma
              (h.1.readValue_blanks (s.line_blank depth) (stops_comma _) (by omega)),
            ih (List.cons_ne_nil next values) h.2 (by omega)]
          rfl

theorem readMembers_comma {value : Data} (hblank : AreBlank blanks) (name : String)
    (h : readValue n cs = some (value, ',' :: rest)) :
    readMembers (n + 1) (blanks ++ (quote name ++ ':' :: cs)) =
      (readMembers n rest).map fun (members, rest) =>
        ((some name.toList, value) :: members, rest) := by
  rw [readMembers, skipBlanks_append hblank, quote, List.cons_append, List.cons_append,
    skipBlanks_cons (by decide)]
  have hcolon : skipBlanks (':' :: cs) = ':' :: cs := rfl
  have hcomma : skipBlanks (',' :: rest) = ',' :: rest := rfl
  simp only [readString_append, hcolon, h, hcomma]

theorem readMembers_close {value : Data} {blanks' : List Char} (hblank : AreBlank blanks)
    (hblank' : AreBlank blanks') (name : String)
    (h : readValue n cs = some (value, blanks' ++ '\x7d' :: rest)) :
    readMembers (n + 1) (blanks ++ (quote name ++ ':' :: cs)) =
      some ([(some name.toList, value)], rest) := by
  rw [readMembers, skipBlanks_append hblank, quote, List.cons_append, List.cons_append,
    skipBlanks_cons (by decide)]
  have hcolon : skipBlanks (':' :: cs) = ':' :: cs := rfl
  have hclose : skipBlanks ('\x7d' :: rest) = '\x7d' :: rest := rfl
  simp only [readString_append, hcolon, h, skipBlanks_append hblank', hclose]

/-- The members of a record as they are read: with their names as characters. -/
def named (members : List (Key × Data)) : List (Option (List Char) × Data) :=
  members.map fun (key, value) => (some key.text.toList, written value)

theorem recordOf_named {members : List (Key × Data)}
    (h : AllNamed members) : recordOf (named members) = .record (writtenMembers members) := by
  have hmapM : ((named members).mapM fun member =>
      member.1.map fun cs => (Key.name (String.ofList cs), member.2)) =
        some (writtenMembers members) := by
    induction members with
    | nil => rfl
    | cons member members ih =>
        obtain ⟨name, value, rfl, hrest⟩ := h.uncons
        change ((some name.toList, written value) :: named members).mapM _ = _
        rw [List.mapM_cons, ih hrest]
        change some ((Key.name (String.ofList name.toList), written value) :: _) = _
        rw [String.ofList_toList]
        rfl
  rw [recordOf, hmapM]

/-- The members of a record up to its closing brace. -/
theorem readMembers_members {members : List (Key × Data)} (hne : members ≠ [])
    (hnames : AllNamed members) (h : ∀ member ∈ members, Reads s member.2) (depth : Nat)
    (hblank : AreBlank blanks)
    (hn : 2 * (s.members depth members).length < n) (rest : List Char) :
    readMembers n (s.members depth members ++ (blanks ++ '\x7d' :: rest)) =
      some (named members, rest) := by
  induction members generalizing n with
  | nil => exact absurd rfl hne
  | cons member members ih =>
      obtain ⟨n, rfl⟩ : ∃ m, n = m + 1 := ⟨n - 1, by omega⟩
      rw [List.forall_mem_cons] at h
      obtain ⟨name, value, rfl, hnamesRest⟩ := hnames.uncons
      dsimp only at h
      cases members with
      | nil =>
          simp only [Spacing.members, List.length_append, List.length_cons] at hn
          rw [Spacing.members, List.append_assoc, List.append_assoc, List.append_assoc]
          exact readMembers_close (s.line_blank depth) hblank name
            (h.1.readValue_blanks s.gap_blank (stops_brace hblank rest) (by omega))
      | cons next members =>
          simp only [Spacing.members_cons_cons, List.length_append, List.length_cons] at hn
          simp only [Spacing.members_cons_cons, List.append_assoc, List.cons_append]
          rw [Key.text, readMembers_comma (s.line_blank depth) name
              (h.1.readValue_blanks s.gap_blank (stops_comma _) (by omega)),
            ih (List.cons_ne_nil next members) hnamesRest h.2 (by omega)]
          rfl

theorem readValue_openList {c : Char} (hc : Opens c) (h : AreBlank blanks) (n : Nat)
    (cs : List Char) : readValue (n + 1) ('[' :: (blanks ++ c :: cs)) =
      (readItems n (blanks ++ c :: cs)).map fun (items, rest) => (.list items, rest) := by
  have hskip : skipBlanks (blanks ++ c :: cs) = c :: cs := by
    rw [skipBlanks_append h, skipBlanks_cons hc.1]
  rw [readValue, skipBlanks_cons (by decide)]
  simp only [hskip]
  split
  next heq => exact absurd (List.cons.inj heq).1 hc.2
  next => rfl

theorem readValue_openRecord (h : AreBlank blanks) (n : Nat) (cs : List Char) :
    readValue (n + 1) ('\x7b' :: (blanks ++ '"' :: cs)) =
      (readMembers n (blanks ++ '"' :: cs)).map
        fun (members, rest) => (recordOf members, rest) := by
  rw [readValue, skipBlanks_cons (by decide)]
  simp only [skipBlanks_append h]
  rfl

theorem exists_items_eq (s : Spacing) (depth : Nat) (item : Data) (rest : List Data) :
    ∃ c cs, Opens c ∧ s.items depth (item :: rest) = s.line depth ++ c :: cs := by
  obtain ⟨c, cs, hcs, hc⟩ := exists_chars_eq_cons s depth item
  cases rest with
  | nil => exact ⟨c, cs, hc, by rw [Spacing.items, hcs]⟩
  | cons next rest =>
      refine ⟨c, cs ++ ',' :: s.items depth (next :: rest), hc, ?_⟩
      rw [Spacing.items_cons_cons, hcs, List.append_assoc, List.cons_append]

theorem exists_members_eq (s : Spacing) (depth : Nat) (member : Key × Data)
    (rest : List (Key × Data)) :
    ∃ cs, s.members depth (member :: rest) = s.line depth ++ '"' :: cs := by
  obtain ⟨key, value⟩ := member
  cases rest with
  | nil =>
      refine ⟨key.text.toList.flatMap escape ++ '"' :: ':' :: (s.gap ++ s.chars depth value), ?_⟩
      simp only [Spacing.members, quote, List.append_assoc, List.cons_append, List.nil_append]
  | cons next rest =>
      refine ⟨key.text.toList.flatMap escape ++ '"' :: ':' :: (s.gap ++ (s.chars depth value ++
        ',' :: s.members depth (next :: rest))), ?_⟩
      simp only [Spacing.members_cons_cons, quote, List.append_assoc, List.cons_append,
        List.nil_append]

theorem reads_list {items : List Data} (h : ∀ item ∈ items, Reads s item) :
    Reads s (.list items) := by
  intro depth n rest _ hn
  cases items with
  | nil =>
      obtain ⟨n, rfl⟩ : ∃ m, n = m + 1 := ⟨n - 1, by simp only [Spacing.chars] at hn; grind⟩
      rfl
  | cons item items =>
      simp only [Spacing.chars, List.length_append, List.length_cons] at hn
      obtain ⟨n, rfl⟩ : ∃ m, n = m + 1 := ⟨n - 1, by omega⟩
      have hread := readItems_items (List.cons_ne_nil item items) h (depth + 1)
        (s.line_blank depth) (n := n) (by omega) rest
      obtain ⟨c, cs, hc, hcs⟩ := exists_items_eq s (depth + 1) item items
      rw [hcs, List.append_assoc, List.cons_append] at hread
      simp only [Spacing.chars, hcs, List.append_assoc, List.cons_append, List.nil_append]
      rw [readValue_openList hc (s.line_blank (depth + 1)), hread]
      rfl

theorem reads_record {members : List (Key × Data)}
    (hnames : AllNamed members) (h : ∀ member ∈ members, Reads s member.2) :
    Reads s (.record members) := by
  intro depth n rest _ hn
  cases members with
  | nil =>
      obtain ⟨n, rfl⟩ : ∃ m, n = m + 1 := ⟨n - 1, by simp only [Spacing.chars] at hn; grind⟩
      rfl
  | cons member members =>
      simp only [Spacing.chars, List.length_append, List.length_cons] at hn
      obtain ⟨n, rfl⟩ : ∃ m, n = m + 1 := ⟨n - 1, by omega⟩
      have hread := readMembers_members (List.cons_ne_nil member members) hnames h (depth + 1)
        (s.line_blank depth) (n := n) (by omega) rest
      obtain ⟨cs, hcs⟩ := exists_members_eq s (depth + 1) member members
      rw [hcs, List.append_assoc, List.cons_append] at hread
      simp only [Spacing.chars, hcs, List.append_assoc, List.cons_append, List.nil_append]
      rw [readValue_openRecord (s.line_blank (depth + 1)), hread, Option.map_some]
      dsimp only
      rw [recordOf_named hnames, written]

theorem Legible.reads (s : Spacing) (h : Legible v) : Reads s v := by
  induction h with
  | null => exact reads_of_step (fun _ => rfl) fun n rest _ => readValue_null n rest
  | bool b => exact reads_of_step (fun _ => by cases b <;> rfl) fun n rest _ => by cases b <;> rfl
  | integer h => exact reads_integer h
  | real hkeeps => exact reads_real hkeeps
  | text t => exact reads_text t
  | list _ ih => exact reads_list ih
  | record hnames _ ih => exact reads_record hnames ih

/-! Whole texts. -/

theorem readFront?_chars (h : Legible v) (s : Spacing) :
    readFront? (s.chars 0 v) = some (written v, []) := by
  have hread := h.reads s 0 (2 * (s.chars 0 v).length + 2) [] Decimal.stops_nil (by omega)
  rwa [List.append_nil] at hread

/-- A text on one line, or with a line for each part. -/
inductive Writes (v : Data) : String → Prop
  | compact : Writes v (compact v)
  | pretty : Writes v (pretty v)

theorem Writes.exists_spacing {text : String} (h : Writes v text) :
    ∃ s : Spacing, text.toList = s.chars 0 v := by
  cases h with
  | compact => exact ⟨.none, by rw [Json.compact, String.toList_ofList, Spacing.chars_none]⟩
  | pretty => exact ⟨.lines, by rw [Json.pretty, String.toList_ofList, Spacing.chars_lines]⟩

theorem Writes.readFront? {text : String} (h : Writes v text) (hv : Legible v) :
    readFront? text.toList = some (written v, []) := by
  obtain ⟨s, hs⟩ := h.exists_spacing
  rw [hs, readFront?_chars hv]

theorem Writes.read? {text : String} (h : Writes v text) (hv : Legible v) :
    read? text = some (written v) := by
  rw [Json.read?, h.readFront? hv]
  rfl

end AtomArray.Json
