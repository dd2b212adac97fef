import AtomArray.Json.Printer

/-! Both ways to lay a value out, on one line and on many, as one printer with blanks to choose. -/

namespace AtomArray.Json

open Data (Key)

def AreBlank (cs : List Char) : Prop := ∀ c ∈ cs, c = ' ' ∨ c = '\n'

/-- Blanks around the parts of lists and records, which depend on the depth. -/
structure Spacing where
  line : Nat → List Char
  gap : List Char
  line_blank (depth : Nat) : AreBlank (line depth)
  gap_blank : AreBlank gap

namespace Spacing

/-- Everything on one line. -/
def none : Spacing := ⟨fun _ => [], [], fun _ _ => (nomatch ·), fun _ => (nomatch ·)⟩

theorem line_none (depth : Nat) : none.line depth = [] := rfl

theorem gap_none : none.gap = [] := rfl

/-- A line for each part. -/
def lines : Spacing where
  line := lineBreak
  gap := [' ']
  line_blank depth c hc := by
    rcases List.mem_cons.1 hc with rfl | hc
    · exact .inr rfl
    · exact .inl (List.eq_of_mem_replicate hc)
  gap_blank c hc := .inl (List.mem_singleton.1 hc)

mutual

def chars (s : Spacing) (depth : Nat) : Data → List Char
  | .list [] => ['[', ']']
  | .list (item :: rest) => '[' :: s.items (depth + 1) (item :: rest) ++ s.line depth ++ [']']
  | .record [] => ['\x7b', '\x7d']
  | .record (member :: rest) =>
    '\x7b' :: s.members (depth + 1) (member :: rest) ++ s.line depth ++ ['\x7d']
  | value => scalar value

def items (s : Spacing) (depth : Nat) : List Data → List Char
  | [] => []
  | [item] => s.line depth ++ s.chars depth item
  | item :: rest => s.line depth ++ s.chars depth item ++ ',' :: s.items depth rest

def members (s : Spacing) (depth : Nat) : List (Key × Data) → List Char
  | [] => []
  | [(key, value)] => s.line depth ++ quote key.text ++ ':' :: s.gap ++ s.chars depth value
  | (key, value) :: rest =>
    s.line depth ++ quote key.text ++ ':' :: s.gap ++ s.chars depth value ++ ',' ::
      s.members depth rest

end

theorem items_cons_cons (s : Spacing) (depth : Nat) (item next : Data) (rest : List Data) :
    s.items depth (item :: next :: rest) =
      s.line depth ++ s.chars depth item ++ ',' :: s.items depth (next :: rest) := rfl

theorem members_cons_cons (s : Spacing) (depth : Nat) (key : Key) (value : Data)
    (next : Key × Data) (rest : List (Key × Data)) :
    s.members depth ((key, value) :: next :: rest) =
      s.line depth ++ quote key.text ++ ':' :: s.gap ++ s.chars depth value ++ ',' ::
        s.members depth (next :: rest) := rfl

mutual

theorem chars_none (depth : Nat) : ∀ v, none.chars depth v = compactChars v
  | .list [] | .record [] => rfl
  | .list (item :: rest) => by
      simp only [chars, compactChars, items_none (depth + 1) (item :: rest), line_none,
        List.append_nil]
  | .record (member :: rest) => by
      simp only [chars, compactChars, members_none (depth + 1) (member :: rest), line_none,
        List.append_nil]
  | .null | .bool true | .bool false | .integer _ | .real _ | .text _ | .unreadable => rfl

theorem items_none (depth : Nat) : ∀ values, none.items depth values = compactItems values
  | [] => rfl
  | [item] => chars_none depth item
  | item :: next :: rest => by
      rw [items, compactItems, chars_none depth item, items_none depth (next :: rest)]
      · rfl
      · exact List.cons_ne_nil next rest
      · exact List.cons_ne_nil next rest

theorem members_none (depth : Nat) :
    ∀ values, none.members depth values = compactMembers values
  | [] => rfl
  | [(key, value)] => by
      rw [members, compactMembers, chars_none depth value, line_none, gap_none, List.nil_append,
        List.append_assoc, List.cons_append, List.nil_append]
  | (key, value) :: next :: rest => by
      rw [members, compactMembers, chars_none depth value, members_none depth (next :: rest)]
      · rw [line_none, gap_none, List.nil_append, List.append_assoc (quote key.text),
          List.cons_append, List.nil_append]
      · exact List.cons_ne_nil next rest
      · exact List.cons_ne_nil next rest

end

mutual

theorem chars_lines (depth : Nat) : ∀ v, lines.chars depth v = prettyChars depth v
  | .list [] | .record [] => rfl
  | .list (item :: rest) => by
      rw [chars, prettyChars, items_lines (depth + 1) (item :: rest)]
      · rfl
      · exact List.cons_ne_nil item rest
  | .record (member :: rest) => by
      rw [chars, prettyChars, members_lines (depth + 1) (member :: rest)]
      · rfl
      · exact List.cons_ne_nil member rest
  | .null | .bool true | .bool false | .integer _ | .real _ | .text _ | .unreadable => rfl

theorem items_lines (depth : Nat) : ∀ values, lines.items depth values = prettyItems depth values
  | [] => rfl
  | [item] => by
      rw [items, prettyItems, chars_lines depth item]
      rfl
  | item :: next :: rest => by
      rw [items, prettyItems, chars_lines depth item, items_lines depth (next :: rest)]
      · rfl
      · exact List.cons_ne_nil next rest
      · exact List.cons_ne_nil next rest

theorem members_lines (depth : Nat) :
    ∀ values, lines.members depth values = prettyMembers depth values
  | [] => rfl
  | [(key, value)] => by
      rw [members, prettyMembers, chars_lines depth value]
      simp only [lines, List.append_assoc, List.cons_append, List.nil_append]
  | (key, value) :: next :: rest => by
      rw [members, prettyMembers, chars_lines depth value, members_lines depth (next :: rest)]
      · simp only [lines, List.append_assoc, List.cons_append, List.nil_append]
      · exact List.cons_ne_nil next rest
      · exact List.cons_ne_nil next rest

end

end Spacing

end AtomArray.Json
