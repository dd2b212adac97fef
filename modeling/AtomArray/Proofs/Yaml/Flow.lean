import AtomArray.Json.Printer
import AtomArray.Proofs.Yaml.Nodes
import AtomArray.Proofs.Yaml.Scan

/-! JSON text with a line for each part: it is scanned into the tokens of its brackets. -/

namespace AtomArray.Yaml

open Data (Key)
open Json (lineBreak quote prettyChars prettyItems prettyMembers)

variable {c : Char} {cs rest tail next : List Char} {place start : Place} {name : String}
  {fresh : Bool} {width brackets k depth : Nat} {T : List Token} {t : Token}

inductive IsOpening : Char → Token → Prop
  | list : IsOpening '[' .openList
  | mapping : IsOpening '\x7b' .openMapping

inductive IsClosing : Char → Token → Prop
  | list : IsClosing ']' .closeList
  | mapping : IsClosing '\x7d' .closeMapping

theorem isSolid_of_isBracketMark (h : isBracketMark c = true) : isSolid c = true := by
  simp only [isBracketMark, List.contains_eq_mem, decide_eq_true_iff, List.mem_cons,
    List.not_mem_nil, or_false] at h
  rcases h with rfl | rfl | rfl | rfl | rfl <;> rfl

namespace Scan

/-! Marks of brackets. -/

theorem not_mark {s : Scan} (hrest : s.rest = c :: rest) (hc : c ≠ '-' ∧ c ≠ '.') :
    ¬(decide (s.place.column = 0) && atMark s.rest) = true := by
  have hmark : Unmarked s.place s.rest := by
    right
    intro d hd
    rw [hrest] at hd
    cases hd
    exact hc
  rw [hmark.atMark]
  exact Bool.false_ne_true

theorem next?_open {s : Scan} (h : IsOpening c t) (hrest : s.rest = c :: rest) :
    s.next? = s.open? t := by
  cases h with
  | list =>
      rw [next?, if_neg (not_mark hrest (by decide)), hrest]
      rfl
  | mapping =>
      rw [next?, if_neg (not_mark hrest (by decide)), hrest]
      rfl

theorem next?_close {s : Scan} (h : IsClosing c t) (hrest : s.rest = c :: rest) :
    s.next? = s.close? t := by
  cases h with
  | list =>
      rw [next?, if_neg (not_mark hrest (by decide)), hrest]
      rfl
  | mapping =>
      rw [next?, if_neg (not_mark hrest (by decide)), hrest]
      rfl

theorem next?_comma {s : Scan} (hrest : s.rest = ',' :: rest) : s.next? = s.comma? := by
  rw [next?, if_neg (not_mark hrest (by decide)), hrest]
  rfl

theorem next?_quote {s : Scan} (hrest : s.rest = '"' :: rest) :
    s.next? = do
      let s ← s.noteKey?
      return s.passed false (← readDouble 0 .none (s.place.right 1) rest) := by
  rw [next?, if_neg (not_mark hrest (by decide)), hrest]
  rfl

theorem head_nil {n : Nat} : ∀ i ∈ ([] : List Nat).head?, i ≤ n := by
  intro i hi
  cases hi

/-- A scan behind an opening bracket where a key could stand. -/
def opened (rest : List Char) (start place : Place) (index brackets : Nat) (tokens : List Token) :
    Scan :=
  ⟨rest, place, true, none, some ⟨index, start, false⟩ :: List.replicate brackets none, [],
    tokens.toArray⟩

/-- A bracket on an earlier line is no key. -/
theorem forgetLost?_opened {index : Nat} (hline : start.line ≠ place.line) :
    (opened rest start place index brackets T).forgetLost? =
      some (quiet rest place true (brackets + 1) [] T) := by
  have hreaches : KeyStart.reaches ⟨index, start, false⟩ place = false := by
    rw [KeyStart.reaches, decide_eq_false hline, Bool.false_and]
  unfold forgetLost? opened
  dsimp only
  rw [if_neg (by simp [List.any_replicate])]
  simp [hreaches, quiet, List.replicate_succ]

/-- An opening bracket at the end of its line. -/
theorem passes_open (h : IsOpening c t) (hrest : AtText rest) :
    Passes (quiet (c :: '\n' :: (List.replicate k ' ' ++ rest)) place fresh brackets [] T)
      (quiet ('\n' :: (List.replicate k ' ' ++ rest)) (place.right 1) true (brackets + 1) []
        (T ++ [t])) := by
  have hc : isSolid c = true := by cases h <;> rfl
  cases fresh with
  | false =>
      refine passes_next (atText_cons hc _) (List.cons_ne_nil _ _) head_nil ?_ (Nat.lt_succ_self _)
      rw [next?_open h rfl]
      simp [quiet, open?, noteKey?, take, List.replicate_succ]
  | true =>
      have hopened : Passes
          (quiet (c :: '\n' :: (List.replicate k ' ' ++ rest)) place true brackets [] T)
          (opened ('\n' :: (List.replicate k ' ' ++ rest)) place (place.right 1) T.length brackets
            (T ++ [t])) := by
        refine passes_next (atText_cons hc _) (List.cons_ne_nil _ _) head_nil ?_
          (Nat.lt_succ_self _)
        rw [next?_open h rfl, open?, noteKey?_quiet]
        simp [quiet, opened, take]
      have hline : skipSpace true false true (place.right 1)
          ('\n' :: (List.replicate k ' ' ++ rest)) = (true, ⟨place.line + 1, k, k⟩, rest) :=
        skipSpace_line hrest k _
      have hskip : (opened ('\n' :: (List.replicate k ' ' ++ rest)) place (place.right 1) T.length
          brackets (T ++ [t])).skip =
          opened rest place ⟨place.line + 1, k, k⟩ T.length brackets (T ++ [t]) := skip_eq hline
      have hquiet : (quiet ('\n' :: (List.replicate k ' ' ++ rest)) (place.right 1) true
          (brackets + 1) [] (T ++ [t])).skip =
          quiet rest ⟨place.line + 1, k, k⟩ true (brackets + 1) [] (T ++ [t]) := skip_eq hline
      refine hopened.trans (Passes.of_skip ?_ (Nat.le_refl _))
      rw [hskip, hquiet, forgetLost?_quiet]
      exact forgetLost?_opened (Nat.ne_of_lt (Nat.lt_succ_self _))

theorem passes_close (h : IsClosing c t) (rest : List Char) :
    Passes (quiet (c :: rest) place fresh (brackets + 1) [] T)
      (quiet rest (place.right 1) false brackets [] (T ++ [t])) := by
  have hc : isSolid c = true := by cases h <;> rfl
  refine passes_next (atText_cons hc rest) (List.cons_ne_nil _ _) head_nil ?_ (Nat.lt_succ_self _)
  rw [next?_close h rfl]
  simp [quiet, close?, forgetKey?, take, List.replicate_succ]

theorem passes_comma (rest : List Char) :
    Passes (quiet (',' :: rest) place fresh (brackets + 1) [] T)
      (quiet rest (place.right 1) true (brackets + 1) [] (T ++ [.comma])) := by
  refine passes_next (atText_cons rfl rest) (List.cons_ne_nil _ _) head_nil ?_ (Nat.lt_succ_self _)
  rw [next?_comma rfl]
  simp [quiet, comma?, forgetKey?, take, List.replicate_succ]

/-- In brackets a line break does not tell whether a key may stand behind it. -/
theorem passes_lineInside (h : AtText rest) (k : Nat) (place : Place) (fresh : Bool)
    (brackets : Nat) (T : List Token) :
    Passes (quiet ('\n' :: (List.replicate k ' ' ++ rest)) place fresh (brackets + 1) [] T)
      (quiet rest ⟨place.line + 1, k, k⟩ fresh (brackets + 1) [] T) := by
  have hfresh : (fresh || decide (brackets + 1 = 0)) = fresh := by
    rw [decide_eq_false (Nat.succ_ne_zero brackets), Bool.or_false]
  have hline : Passes
      (quiet ('\n' :: (List.replicate k ' ' ++ rest)) place fresh (brackets + 1) [] T)
      (quiet rest ⟨place.line + 1, k, k⟩ (fresh || decide (brackets + 1 = 0)) (brackets + 1) []
        T) := passes_line h k
  rwa [hfresh] at hline

/-! Words in quotes, and numbers. -/

theorem escape_of_isSafe (h : isSafe c = true) : Json.escape c = [c] := by
  have hlow := (toNat_of_isSafe h).1
  have hspace : ¬c < ' ' := by
    intro hlt
    have hlt' : c.toNat < 32 := UInt32.lt_iff_toNat_lt.1 hlt
    omega
  unfold Json.escape
  split
  · exact absurd h (by decide)
  · exact absurd h (by decide)
  · exact absurd h (by decide)
  · exact absurd h (by decide)
  · exact absurd h (by decide)
  · exact absurd h (by decide)
  · exact absurd h (by decide)
  · rw [if_neg hspace]

theorem quote_word (hname : isWord name = true) : quote name = '"' :: (name.toList ++ ['"']) := by
  have hescape : name.toList.flatMap Json.escape = name.toList := by
    have hsafe := List.all_eq_true.1 (isWord.isSafe hname)
    generalize name.toList = cs at hsafe
    induction cs with
    | nil => rfl
    | cons c cs ih =>
        obtain ⟨hc, hcs⟩ := List.forall_mem_cons.1 hsafe
        rw [List.flatMap_cons, ih hcs, escape_of_isSafe hc, List.singleton_append]
  rw [quote, hescape, List.cons_append]

theorem readDouble_word (hname : isWord name = true) (rest : List Char) :
    readDouble 0 .none (place.right 1) (name.toList ++ '"' :: rest) =
      some ⟨name.toList, false, place.right (name.toList.length + 2), rest⟩ := by
  rw [readDouble_quote (isWord.isSafe hname), right_right, Nat.add_comm 1]

theorem passes_quoted (hname : isWord name = true) (rest : List Char) :
    Passes (quiet (quote name ++ rest) place false (brackets + 1) [] T)
      (quiet rest (place.right (name.toList.length + 2)) false (brackets + 1) []
        (T ++ [.scalar false name])) := by
  rw [quote_word hname, List.cons_append, List.append_assoc, List.singleton_append]
  refine passes_next (atText_cons rfl _) (List.cons_ne_nil _ _) head_nil ?_ ?_
  · rw [next?_quote rfl]
    change (readDouble 0 .none (place.right 1) (name.toList ++ '"' :: rest)).bind _ = _
    rw [readDouble_word hname]
    simp [passed, quiet]
  · simp only [quiet, List.length_cons, List.length_append]
    omega

/-- In brackets a colon makes a key of what stands before it. -/
theorem passes_colonInside (rest : List Char) (hwidth : width ≤ 1024) :
    Passes (keyed (':' :: rest) start width (brackets + 1) false [] T t)
      (quiet rest (start.right (width + 1)) false (brackets + 1) [] (T ++ [.key, t, .value])) := by
  have hcolon : (keyed (':' :: rest) start width (brackets + 1) false [] T t).colon? =
      some (quiet rest (start.right (width + 1)) false (brackets + 1) []
        (T ++ [.key, t, .value])) := by
    have hkey := insertIdxIfInBounds_append T [t] .key
    unfold colon? keyed
    simp only [hkey]
    rw [indent, if_pos (by simp [inBrackets, List.replicate_succ])]
    simp [take, quiet, right_right]
  refine Passes.of_next (settled_keyed (atText_cons rfl _) hwidth) (List.cons_ne_nil _ _) ?_
    (Nat.lt_succ_self _)
  rw [unindent_of_head (s := keyed _ _ _ _ _ [] _ _) (by intro i hi; cases hi), next?,
    if_neg (not_mark rfl (by decide))]
  exact hcolon

/-- A word in quotes and the colon behind it. -/
theorem passes_quotedKey (hname : isWord name = true) (rest : List Char) :
    Passes (quiet (quote name ++ ':' :: rest) place true (brackets + 1) [] T)
      (quiet rest (place.right (name.toList.length + 3)) false (brackets + 1) []
        (T ++ [.key, .scalar false name, .value])) := by
  have hkey : Passes (quiet (quote name ++ ':' :: rest) place true (brackets + 1) [] T)
      (keyed (':' :: rest) place (name.toList.length + 2) (brackets + 1) false [] T
        (.scalar false name)) := by
    rw [quote_word hname, List.cons_append, List.append_assoc, List.singleton_append]
    refine passes_next (atText_cons rfl _) (List.cons_ne_nil _ _) head_nil ?_ ?_
    · rw [next?_quote rfl, noteKey?_quiet]
      change (readDouble 0 .none (place.right 1) (name.toList ++ '"' :: ':' :: rest)).bind _ = _
      rw [readDouble_word hname]
      simp [passed, quiet, keyed]
    · simp only [keyed, List.length_cons, List.length_append]
      omega
  have hlength := (isWord.parts hname).2.2.1
  exact hkey.trans (passes_colonInside rest (by omega))

end Scan

open Scan

/-! What comes behind a value. -/

/-- A comma, or a closing bracket on a line of its own, with what is left of the text there. -/
inductive Follows : List Char → List Char → Prop
  | comma (rest : List Char) : Follows (',' :: rest) (',' :: rest)
  | close (k : Nat) {c : Char} (rest : List Char) : isBracketMark c = true →
      Follows ('\n' :: (List.replicate k ' ' ++ c :: rest)) (c :: rest)

theorem Follows.passes (h : Follows tail next) (place : Place) (fresh : Bool) (brackets : Nat)
    (T : List Token) : ∃ place', Passes (quiet tail place fresh (brackets + 1) [] T)
      (quiet next place' fresh (brackets + 1) [] T) := by
  cases h with
  | comma rest => exact ⟨place, Passes.refl _⟩
  | close k rest hc =>
      have htext : AtText _ := atText_cons (isSolid_of_isBracketMark hc) rest
      exact ⟨⟨place.line + 1, k, k⟩, passes_lineInside htext k place fresh brackets T⟩

theorem Follows.length_le (h : Follows tail next) : next.length ≤ tail.length := by
  cases h with
  | comma rest => exact Nat.le_refl _
  | close k rest _ =>
      simp only [List.length_cons, List.length_append]
      omega

theorem Follows.readPlain (h : Follows tail next) (place : Place) :
    ∃ broken place', readPlain true 0 .none place tail = some ⟨[], broken, place', next⟩ := by
  cases h with
  | comma rest => exact ⟨false, place, readPlain_comma rest⟩
  | close k rest hc =>
      refine ⟨true, _, readPlain_break ?_⟩
      rintro _ ⟨⟩
      refine ⟨isSpace_of_isSolid (isSolid_of_isBracketMark hc), ?_⟩
      rw [hc]
      rfl

/-! Texts of tidy values. -/

/-- A value behind a key and its colon, in brackets. -/
def ScansPart (v : Data) : Prop :=
  ∀ depth place brackets T tail next, Follows tail next → ∃ place' fresh, Passes
    (quiet (' ' :: (prettyChars depth v ++ tail)) place false (brackets + 1) [] T)
    (quiet next place' fresh (brackets + 1) [] (T ++ flowTokens (node true .json v)))

/-- A value that stands in brackets of its own. -/
def ScansWhole (v : Data) : Prop :=
  ∀ depth place fresh brackets T tail, ∃ place', Passes
    (quiet (prettyChars depth v ++ tail) place fresh brackets [] T)
    (quiet tail place' false brackets [] (T ++ flowTokens (node true .json v)))

theorem scansPart_number {v : Data} {text : String} (hplain : IsPlain text.toList)
    (hchars : ∀ depth, prettyChars depth v = text.toList)
    (hnode : node true .json v = .scalar true text) : ScansPart v := by
  intro depth place brackets T tail next htail
  obtain ⟨broken, place', hread⟩ := htail.readPlain ((place.right 1).right text.toList.length)
  refine ⟨place', broken, (passes_blank (by rw [hchars]; exact hplain.atText _)).trans ?_⟩
  rw [hchars, hnode]
  have hmark : Unmarked (place.right 1) text.toList := unmarked_right place 0 _
  refine passes_next (hplain.atText _) (hplain.append_ne_nil _) head_nil ?_ ?_
  · rw [next?_of_isPlain hplain rfl hmark]
    change (Yaml.readPlain true 0 .none (place.right 1) (text.toList ++ tail)).bind _ = _
    rw [readPlain_append hplain.safe hmark, hread]
    simp [Reading.onto, passed, quiet, flowTokens]
  · obtain ⟨c, cs, hcs, -⟩ := hplain.head
    have hlength := htail.length_le
    simp only [quiet, hcs, List.length_append, List.length_cons]
    omega

theorem scansPart_word {s : String} (hs : isWord s = true) : ScansPart (.text s) := by
  intro depth place brackets T tail next htail
  obtain ⟨place', hfollows⟩ := htail.passes ((place.right 1).right (s.toList.length + 2)) false
    brackets (T ++ [.scalar false s])
  refine ⟨place', false, ?_⟩
  exact (passes_blank (atText_cons rfl _)).trans ((passes_quoted hs tail).trans hfollows)

theorem ScansWhole.scansPart {v : Data} (h : ScansWhole v)
    (hv : ∀ depth tail, AtText (prettyChars depth v ++ tail)) : ScansPart v := by
  intro depth place brackets T tail next htail
  obtain ⟨last, hwhole⟩ := h depth (place.right 1) false (brackets + 1) T tail
  obtain ⟨place', htail⟩ := htail.passes last false brackets (T ++ flowTokens (node true .json v))
  exact ⟨place', false, (passes_blank (hv depth tail)).trans (hwhole.trans htail)⟩

theorem flow_member {value : Data} (hname : isWord name = true) (hvalue : ScansPart value)
    (htail : Follows tail next) (depth : Nat) (place : Place) (brackets : Nat) (T : List Token) :
    ∃ place' fresh, Passes
      (quiet (lineBreak depth ++ (quote name ++ ':' :: ' ' :: (prettyChars depth value ++ tail)))
        place true (brackets + 1) [] T)
      (quiet next place' fresh (brackets + 1) []
        (T ++ .key :: .scalar false name :: .value :: flowTokens (node true .json value))) := by
  have hquote : ∀ cs, AtText (quote name ++ cs) := fun cs => atText_cons rfl _
  obtain ⟨place', fresh, hvalue⟩ := hvalue depth
    (Place.right ⟨place.line + 1, 2 * depth, 2 * depth⟩ (name.toList.length + 3)) brackets
    (T ++ [.key, .scalar false name, .value]) tail next htail
  rw [List.append_assoc] at hvalue
  refine ⟨place', fresh, (passes_lineInside (hquote _) (2 * depth) place true brackets T).trans ?_⟩
  exact (passes_quotedKey hname _).trans hvalue

theorem flow_members {members : List (Key × Data)} (hne : members ≠ [])
    (hnames : Worded members) (h : ∀ member ∈ members, ScansPart member.2)
    (htail : Follows tail next) (depth : Nat) (place : Place) (brackets : Nat) (T : List Token) :
    ∃ place' fresh, Passes
      (quiet (prettyMembers depth members ++ tail) place true (brackets + 1) [] T)
      (quiet next place' fresh (brackets + 1) []
        (T ++ flowMembers (memberNodes true .json members))) := by
  induction members generalizing place T with
  | nil => exact absurd rfl hne
  | cons member members ih =>
      obtain ⟨name, value, rfl, hname, hnamesRest⟩ := hnames.uncons
      obtain ⟨hvalue, hrest⟩ := List.forall_mem_cons.1 h
      cases members with
      | nil =>
          obtain ⟨place', fresh, hmember⟩ := flow_member hname hvalue htail depth place brackets T
          refine ⟨place', fresh, ?_⟩
          simpa only [prettyMembers, memberNodes, flowMembers, flowTokens, Key.text, Bool.not_true,
            List.append_assoc, List.cons_append, List.nil_append, List.append_nil] using hmember
      | cons second members =>
          have hsecond := List.cons_ne_nil second members
          obtain ⟨last, fresh, hmember⟩ := flow_member hname hvalue
            (.comma (prettyMembers depth (second :: members) ++ tail)) depth place brackets T
          obtain ⟨place', fresh', hmembers⟩ := ih hsecond hnamesRest hrest (last.right 1)
            (T ++ .key :: .scalar false name :: .value :: flowTokens (node true .json value) ++
              [.comma])
          refine ⟨place', fresh', ?_⟩
          have hpasses := hmember.trans ((passes_comma _).trans hmembers)
          simp only [memberNodes, Key.text, Bool.not_true, List.append_assoc, List.cons_append,
            List.nil_append] at hpasses ⊢
          rw [prettyMembers, flowMembers]
          · simpa only [memberNodes, flowTokens, Key.text, Bool.not_true, List.append_assoc,
              List.cons_append, List.nil_append] using hpasses
          · exact List.cons_ne_nil _ _
          · exact hsecond

theorem exists_prettyMembers_eq (depth : Nat) {members : List (Key × Data)} (hne : members ≠ []) :
    ∃ rest, prettyMembers depth members = lineBreak depth ++ '"' :: rest := by
  cases members with
  | nil => exact absurd rfl hne
  | cons member members =>
      obtain ⟨key, value⟩ := member
      cases members with
      | nil =>
          refine ⟨key.text.toList.flatMap Json.escape ++ '"' :: ':' :: ' ' ::
            prettyChars depth value, ?_⟩
          simp only [prettyMembers, quote, List.append_assoc, List.cons_append, List.nil_append]
      | cons second members =>
          refine ⟨key.text.toList.flatMap Json.escape ++ '"' :: ':' :: ' ' ::
            (prettyChars depth value ++ ',' :: prettyMembers depth (second :: members)), ?_⟩
          rw [prettyMembers]
          · simp only [quote, List.append_assoc, List.cons_append, List.nil_append]
          · exact List.cons_ne_nil second members

/-- What stands in brackets is scanned into its tokens, up to what comes behind it. -/
def ScansInner (inner : List Char) (tokens : List Token) : Prop :=
  ∀ tail next, Follows tail next → ∀ place brackets T, ∃ place' fresh, Passes
    (quiet (inner ++ tail) place true (brackets + 1) [] T)
    (quiet next place' fresh (brackets + 1) [] (T ++ tokens))

/-- A value in brackets, with lines of its own for what is in them. -/
theorem passes_brackets {left right : Char} {t t' : Token} {inner : List Char} {tokens : List Token}
    (hopen : IsOpening left t) (hclose : IsClosing right t') (hinner : ScansInner inner tokens)
    (hstart : ∃ c rest, isSolid c = true ∧ inner = lineBreak (depth + 1) ++ c :: rest)
    (place : Place) (fresh : Bool) (brackets : Nat) (T : List Token) (tail : List Char) :
    ∃ place', Passes
      (quiet (left :: inner ++ lineBreak depth ++ [right] ++ tail) place fresh brackets [] T)
      (quiet tail place' false brackets [] (T ++ t :: tokens ++ [t'])) := by
  have hmark : isBracketMark right = true := by cases hclose <;> rfl
  obtain ⟨last, fresh', hpasses⟩ := hinner (lineBreak depth ++ right :: tail) (right :: tail)
    (.close (2 * depth) tail hmark) (place.right 1) brackets (T ++ [t])
  obtain ⟨c, rest, hc, hrest⟩ := hstart
  have hopened : Passes
      (quiet (left :: (inner ++ (lineBreak depth ++ right :: tail))) place fresh brackets [] T)
      (quiet (inner ++ (lineBreak depth ++ right :: tail)) (place.right 1) true (brackets + 1) []
        (T ++ [t])) := by
    rw [hrest, List.append_assoc, List.cons_append]
    exact passes_open hopen (atText_cons hc _)
  refine ⟨last.right 1, ?_⟩
  simpa only [List.append_assoc, List.cons_append, List.nil_append] using
    hopened.trans (hpasses.trans (passes_close hclose tail))

theorem prettyChars_record {members : List (Key × Data)} (hne : members ≠ []) (depth : Nat) :
    prettyChars depth (.record members) =
      '\x7b' :: prettyMembers (depth + 1) members ++ lineBreak depth ++ ['\x7d'] := by
  cases members with
  | nil => exact absurd rfl hne
  | cons member members => rfl

theorem prettyChars_list {items : List Data} (hne : items ≠ []) (depth : Nat) :
    prettyChars depth (.list items) =
      '[' :: prettyItems (depth + 1) items ++ lineBreak depth ++ [']'] := by
  cases items with
  | nil => exact absurd rfl hne
  | cons item items => rfl

theorem scansWhole_record {members : List (Key × Data)} (hne : members ≠ [])
    (hnames : Worded members) (h : ∀ member ∈ members, ScansPart member.2) :
    ScansWhole (.record members) := by
  intro depth place fresh brackets T tail
  obtain ⟨rest, hrest⟩ := exists_prettyMembers_eq (depth + 1) hne
  have hinner : ScansInner (prettyMembers (depth + 1) members)
      (flowMembers (memberNodes true .json members)) := by
    intro tail next htail place brackets T
    exact flow_members hne hnames h htail (depth + 1) place brackets T
  rw [prettyChars_record hne, node, flowTokens, ← List.append_assoc]
  exact passes_brackets .mapping .mapping hinner ⟨'"', rest, rfl, hrest⟩ place fresh brackets T tail

/-- An item that stands in brackets of its own, on a line of its own. -/
theorem flow_item {item : Data} (hitem : ∃ members, item = .record members ∧ members ≠ [])
    (h : ScansWhole item) (depth : Nat) (place : Place) (brackets : Nat) (T : List Token)
    (tail : List Char) : ∃ place', Passes
      (quiet (lineBreak depth ++ (prettyChars depth item ++ tail)) place true (brackets + 1) [] T)
      (quiet tail place' false (brackets + 1) [] (T ++ flowTokens (node true .json item))) := by
  obtain ⟨members, rfl, hne⟩ := hitem
  obtain ⟨place', hwhole⟩ :=
    h depth ⟨place.line + 1, 2 * depth, 2 * depth⟩ true (brackets + 1) T tail
  have htext : AtText (prettyChars depth (.record members) ++ tail) := by
    rw [prettyChars_record hne]
    exact atText_cons rfl _
  exact ⟨place', (passes_lineInside htext (2 * depth) place true brackets T).trans hwhole⟩

theorem flow_items {items : List Data} (hne : items ≠ [])
    (hitems : ∀ item ∈ items, ∃ members, item = .record members ∧ members ≠ [])
    (h : ∀ item ∈ items, ScansWhole item) (htail : Follows tail next) (depth : Nat)
    (place : Place) (brackets : Nat) (T : List Token) :
    ∃ place' fresh, Passes
      (quiet (prettyItems depth items ++ tail) place true (brackets + 1) [] T)
      (quiet next place' fresh (brackets + 1) []
        (T ++ flowItems (itemNodes true .json items))) := by
  induction items generalizing place T with
  | nil => exact absurd rfl hne
  | cons item items ih =>
      obtain ⟨hitem, hitems⟩ := List.forall_mem_cons.1 hitems
      obtain ⟨hwhole, hrest⟩ := List.forall_mem_cons.1 h
      cases items with
      | nil =>
          obtain ⟨last, hscan⟩ := flow_item hitem hwhole depth place brackets T tail
          obtain ⟨place', hfollows⟩ := htail.passes last false brackets
            (T ++ flowTokens (node true .json item))
          refine ⟨place', false, ?_⟩
          simpa only [prettyItems, itemNodes, flowItems, List.append_assoc]
            using hscan.trans hfollows
      | cons second items =>
          obtain ⟨last, hscan⟩ := flow_item hitem hwhole depth place brackets T
            (',' :: (prettyItems depth (second :: items) ++ tail))
          obtain ⟨place', fresh, hscans⟩ := ih (List.cons_ne_nil second items) hitems hrest
            (last.right 1) (T ++ flowTokens (node true .json item) ++ [.comma])
          have hpasses := hscan.trans ((passes_comma _).trans hscans)
          refine ⟨place', fresh, ?_⟩
          simp only [itemNodes, List.append_assoc, List.cons_append, List.nil_append] at hpasses ⊢
          rw [prettyItems, flowItems]
          · simpa only [itemNodes, List.append_assoc, List.cons_append] using hpasses
          · exact List.cons_ne_nil _ _
          · exact List.cons_ne_nil second items

theorem exists_prettyItems_eq (depth : Nat) {items : List Data} (hne : items ≠ [])
    (hitems : ∀ item ∈ items, ∃ members, item = .record members ∧ members ≠ []) :
    ∃ rest, prettyItems depth items = lineBreak depth ++ '\x7b' :: rest := by
  cases items with
  | nil => exact absurd rfl hne
  | cons item items =>
      obtain ⟨members, rfl, hmembers⟩ := hitems item List.mem_cons_self
      obtain ⟨rest, hrest⟩ : ∃ rest, prettyChars depth (.record members) = '\x7b' :: rest :=
        ⟨_, prettyChars_record hmembers depth⟩
      cases items with
      | nil => exact ⟨rest, by rw [prettyItems, hrest]⟩
      | cons second items =>
          refine ⟨rest ++ ',' :: prettyItems depth (second :: items), ?_⟩
          rw [prettyItems, hrest, List.append_assoc, List.cons_append]
          exact List.cons_ne_nil second items

theorem scansWhole_list {items : List Data} (hne : items ≠ [])
    (hitems : ∀ item ∈ items, ∃ members, item = .record members ∧ members ≠ [])
    (h : ∀ item ∈ items, ScansWhole item) : ScansWhole (.list items) := by
  intro depth place fresh brackets T tail
  have hinner : ScansInner (prettyItems (depth + 1) items)
      (flowItems (itemNodes true .json items)) := by
    intro tail next htail place brackets T
    exact flow_items hne hitems h htail (depth + 1) place brackets T
  obtain ⟨rest, hrest⟩ := exists_prettyItems_eq (depth + 1) hne hitems
  rw [prettyChars_list hne, node, flowTokens, ← List.append_assoc]
  exact passes_brackets .list .list hinner ⟨'\x7b', rest, rfl, hrest⟩ place fresh brackets T tail

/-- A tidy value is scanned into the tokens of its brackets. -/
theorem Tidy.scansFlow {v : Data} (h : Tidy HasText v) : ScansPart v ∧
    ∀ members, v = .record members → members ≠ [] ∧ ScansWhole v := by
  induction h with
  | @integer n _ =>
      refine ⟨scansPart_number (isPlain_toString n) (fun _ => rfl) rfl, fun _ h => ?_⟩
      cases h
  | @real x hx =>
      have hnumber : ∀ depth, prettyChars depth (.real x) = (Decimal.Style.json.render x).toList :=
        fun _ => if_pos hx
      refine ⟨scansPart_number (isPlain_render rfl hx) hnumber rfl, fun _ h => ?_⟩
      cases h
  | word hs =>
      refine ⟨scansPart_word hs, fun _ h => ?_⟩
      cases h
  | @list items hne hrecords _ ih =>
      have hitems : ∀ item ∈ items, ∃ members, item = Data.record members ∧ members ≠ [] := by
        intro item hitem
        obtain ⟨members, hmembers⟩ := hrecords item hitem
        exact ⟨members, hmembers, ((ih item hitem).2 members hmembers).1⟩
      have hwhole := scansWhole_list hne hitems fun item hitem => by
        obtain ⟨members, hmembers⟩ := hrecords item hitem
        exact ((ih item hitem).2 members hmembers).2
      refine ⟨hwhole.scansPart fun depth tail => ?_, fun _ h => ?_⟩
      · rw [prettyChars_list hne]
        exact atText_cons rfl _
      · cases h
  | record hne hnames _ ih =>
      have hwhole := scansWhole_record hne hnames fun member hmember => (ih member hmember).1
      refine ⟨hwhole.scansPart fun depth tail => ?_, fun members h => ?_⟩
      · rw [prettyChars_record hne]
        exact atText_cons rfl _
      · cases h
        exact ⟨hne, hwhole⟩

/-- The JSON text of a record is scanned into the tokens of its brackets. -/
theorem Tidy.tokens?_prettyChars {members : List (Key × Data)}
    (h : Tidy HasText (.record members)) :
    tokens? (prettyChars 0 (.record members)) =
      some (flowTokens (node true .json (.record members))) := by
  obtain ⟨place, hwhole⟩ := (h.scansFlow.2 members rfl).2 0 (.lineStart 0) true 0 [] []
  rw [List.append_nil] at hwhole
  exact hwhole.run_eq rfl fun n => run_quiet_nil n

end AtomArray.Yaml
