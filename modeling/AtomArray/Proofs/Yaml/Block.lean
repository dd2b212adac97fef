import AtomArray.Proofs.Yaml.Nodes
import AtomArray.Proofs.Yaml.Scan
import AtomArray.Yaml.Document
import AtomArray.Yaml.Printer

/-! Values nested by indentation: their text is scanned into the tokens of their blocks. -/

namespace AtomArray.Yaml

open Data (Key)
open Decimal (Style)

variable {c : Char} {cs content rest : List Char} {place start : Place} {name : String}
  {width column k depth : Nat} {I J : List Nat} {T T' : List Token} {t : Token}

namespace Scan

/-! Blocks that end. -/

theorem unindent_cons {leaves : Nat → Bool} {i : Nat} (h : leaves i = true) :
    (quiet rest place true 0 (i :: I) T).unindent leaves =
      (quiet rest place true 0 I (T ++ [.endBlock])).unindent leaves := by
  have hpush : T.toArray ++ Array.replicate ((I.takeWhile leaves).length + 1) Token.endBlock =
      (T ++ [Token.endBlock]).toArray ++ Array.replicate (I.takeWhile leaves).length .endBlock := by
    apply Array.toList_inj.1
    simp only [Array.toList_append, Array.toList_replicate, List.replicate_succ, List.append_assoc,
      List.cons_append, List.nil_append]
  unfold unindent quiet
  simp only [inBrackets, List.replicate_zero, List.isEmpty_nil, Bool.not_true, Bool.false_eq_true,
    if_false, List.takeWhile_cons_of_pos h, List.dropWhile_cons_of_pos h, List.length_cons, hpush]

/-- A block ends left of its column, and at the end of the text. -/
theorem passes_endBlock {i : Nat} (htext : AtText rest) (h : place.column < i ∨ rest = []) :
    Passes (quiet rest place true 0 (i :: I) T) (quiet rest place true 0 I (T ++ [.endBlock])) := by
  refine ⟨0, by rw [Nat.zero_add]; exact Nat.le_refl _, fun n => ?_⟩
  cases n with
  | zero => rfl
  | succ n =>
      rw [Nat.add_zero, run_of_settled (settled_quiet htext), run_of_settled (settled_quiet htext)]
      by_cases hrest : rest = []
      · subst hrest
        exact congrArg (fun s : Scan => s.forgetKey?.bind fun s => some s.tokens.toList)
          (unindent_cons rfl)
      · have hleft : decide (place.column < i) = true := decide_eq_true (h.resolve_right hrest)
        have hempty : ¬rest.isEmpty = true := List.isEmpty_iff.not.2 hrest
        refine (if_neg hempty).trans (Eq.trans ?_ (if_neg hempty).symm)
        exact congrArg (fun s : Scan => s.next?.bind (run n)) (unindent_cons hleft)

/-! Keys. -/

/-- A key stands in the column of the innermost block, or right of it and starts a block. -/
inductive Opens (column : Nat) (I : List Nat) : List Nat → List Token → List Token → Prop
  | further (T : List Token) : Opens column I (column :: I) T T
  | first (T : List Token) : (∀ i ∈ I.head?, i < column) →
      Opens column I I T (T ++ [.startMapping])

theorem Opens.head_le (h : Opens column I J T T') : ∀ i ∈ J.head?, i ≤ column := by
  cases h with
  | further =>
      rintro _ ⟨⟩
      exact Nat.le_refl column
  | first _ h =>
      intro i hi
      exact Nat.le_of_lt (h i hi)

theorem colon?_keyed {required : Bool} (h : Opens start.column I J T T') :
    (keyed (':' :: rest) start width 0 required J T t).colon? =
      some (quiet rest (start.right (width + 1)) false 0 (start.column :: I)
        (T' ++ [.key, t, .value])) := by
  have hkey := insertIdxIfInBounds_append T [t] .key
  cases h with
  | further =>
      unfold colon? keyed
      simp only [hkey]
      rw [indent, if_pos (by simp)]
      simp [take, quiet, right_right]
  | first T h =>
      have hblock := insertIdxIfInBounds_append T [.key, t] .startMapping
      unfold colon? keyed
      simp only [hkey]
      have hhead : I.head?.any (start.column ≤ ·) = false := by
        cases I with
        | nil => rfl
        | cons i I => exact decide_eq_false (Nat.not_le.2 (h i rfl))
      rw [indent, if_neg (by simp [hhead, inBrackets])]
      simp [take, quiet, right_right, hblock]

theorem passes_colon {required : Bool} (h : Opens start.column I J T T')
    (hrest : atSpace rest = true) (hwidth : width ≤ 1024) :
    Passes (keyed (':' :: rest) start width 0 required J T t)
      (quiet rest (start.right (width + 1)) false 0 (start.column :: I)
        (T' ++ [.key, t, .value])) := by
  have hhead : ∀ i ∈ J.head?, i ≤ (start.right width).column := by
    intro i hi
    exact Nat.le_trans (h.head_le i hi) (Nat.le_add_right _ _)
  have hguard : (decide (':' = ':') && (false || atSpace rest)) = true := by
    rw [hrest]
    rfl
  refine Passes.of_next (settled_keyed (atText_cons rfl _) hwidth) (List.cons_ne_nil _ _) ?_
    (Nat.lt_succ_self _)
  rw [unindent_of_le hhead, next?, if_neg]
  · exact (if_pos hguard).trans (colon?_keyed h)
  · have hmark : atMark (':' :: rest) = false := rfl
    change ¬(_ && atMark (':' :: rest)) = true
    rw [hmark, Bool.and_false]
    exact Bool.false_ne_true

/-- A word and the colon behind it. -/
theorem passes_key (h : Opens place.column I J T T') (hname : isWord name = true)
    (hrest : atSpace rest = true) :
    Passes (quiet (name.toList ++ ':' :: rest) place true 0 J T)
      (quiet rest (place.right (name.toList.length + 1)) false 0 (place.column :: I)
        (T' ++ [.key, .scalar true name, .value])) := by
  have hplain := isWord.isPlain hname
  have hread : ∀ floor, readPlain false floor .none place (name.toList ++ ':' :: rest) =
      some ⟨name.toList, false, place.right name.toList.length, ':' :: rest⟩ := by
    intro floor
    rw [readPlain_append hplain.safe (isWord.unmarked hname place), readPlain_colon hrest]
    simp only [Option.map_some, Reading.onto, List.append_nil]
  have hnext : (quiet (name.toList ++ ':' :: rest) place true 0 J T).next? =
      some (keyed (':' :: rest) place name.toList.length 0 (decide (J.head? = some place.column))
        J T (.scalar true name)) := by
    rw [next?_of_isPlain hplain rfl (isWord.unmarked hname place), noteKey?_quiet]
    change (readPlain false _ .none place (name.toList ++ ':' :: rest)).bind _ = _
    rw [hread]
    simp only [Option.bind_some, passed, keyed, quiet, String.ofList_toList, List.push_toArray]
    rfl
  have hword : Passes (quiet (name.toList ++ ':' :: rest) place true 0 J T)
      (keyed (':' :: rest) place name.toList.length 0 (decide (J.head? = some place.column)) J T
        (.scalar true name)) := by
    refine passes_next (hplain.atText _) (hplain.append_ne_nil _) h.head_le hnext ?_
    have hpos := (isWord.parts hname).2.1
    simp only [keyed, List.length_append]
    omega
  have hwidth : name.toList.length ≤ 1024 :=
    Nat.le_trans (isWord.parts hname).2.2.1 (by decide)
  exact hword.trans (passes_colon h hrest hwidth)

/-! Values and dashes. -/

theorem passes_scalar {i : Nat} (hplain : IsPlain cs) (hcontent : AtText content) (hk : k ≤ i)
    (hplace : i ≤ place.column) :
    Passes
      (quiet (' ' :: (cs ++ '\n' :: (List.replicate k ' ' ++ content))) place false 0 (i :: I) T)
      (quiet content ⟨place.line + 1, k, k⟩ true 0 (i :: I)
        (T ++ [.scalar true (String.ofList cs)])) := by
  have hends : EndsLine false (i + 1) k content := by
    intro c hc
    refine ⟨isSpace_of_isSolid (hcontent c hc), ?_⟩
    rw [decide_eq_true (Nat.lt_succ_of_le hk)]
    rfl
  have hmark : Unmarked (place.right 1) cs := unmarked_right place 0 cs
  have hread : readPlain false (i + 1) .none (place.right 1)
      (cs ++ '\n' :: (List.replicate k ' ' ++ content)) =
        some ⟨cs, true, ⟨place.line + 1, k, k⟩, content⟩ := by
    rw [readPlain_append hplain.safe hmark, readPlain_break hends]
    simp only [Option.map_some, Reading.onto, List.append_nil, Place.right]
  refine (passes_blank (hplain.atText _)).trans ?_
  refine passes_next (hplain.atText _) (hplain.append_ne_nil _) ?_ ?_ ?_
  · rintro _ ⟨⟩
    exact Nat.le_trans hplace (Nat.le_add_right _ _)
  · rw [next?_of_isPlain hplain rfl hmark]
    change (readPlain false (i + 1) .none (place.right 1) (cs ++ '\n' ::
      (List.replicate k ' ' ++ content))).bind _ = _
    rw [hread]
    simp only [Option.bind_some, passed, quiet, List.push_toArray]
    rfl
  · obtain ⟨c, ds, rfl, -⟩ := hplain.head
    simp only [quiet, List.length_append, List.length_cons]
    omega

/-- Behind a key, a line break and the indentation of what stands on lines of its own. -/
theorem passes_lineEnd (h : AtText rest) (k : Nat) :
    Passes (quiet ('\n' :: (List.replicate k ' ' ++ rest)) place false 0 I T)
      (quiet rest ⟨place.line + 1, k, k⟩ true 0 I T) :=
  passes_line h k

theorem passes_dash (hrest : AtText rest) :
    Passes (quiet ('-' :: ' ' :: rest) place true 0 (place.column :: I) T)
      (quiet rest (place.right 2) true 0 (place.column :: I) (T ++ [.dash])) := by
  have hdash : (quiet ('-' :: ' ' :: rest) place true 0 (place.column :: I) T).next? =
      some (quiet (' ' :: rest) (place.right 1) true 0 (place.column :: I) (T ++ [.dash])) := by
    have hguard : ¬(decide (place.column = 0) && false) = true := by
      rw [Bool.and_false]
      exact Bool.false_ne_true
    have hsame : (quiet ('-' :: ' ' :: rest) place true 0 (place.column :: I) T).indent place.column
        T.length .startList = quiet ('-' :: ' ' :: rest) place true 0 (place.column :: I) T := by
      rw [indent, if_pos (by simp [quiet])]
    rw [next?]
    refine (if_neg hguard).trans ?_
    change (quiet ('-' :: ' ' :: rest) place true 0 (place.column :: I) T).dash? = _
    rw [dash?]
    change (((quiet ('-' :: ' ' :: rest) place true 0 (place.column :: I) T).indent place.column
      T.length .startList).forgetKey?.bind _) = _
    rw [hsame]
    simp [forgetKey?, take, quiet]
  have hhead : ∀ i ∈ (place.column :: I).head?, i ≤ place.column := by
    rintro _ ⟨⟩
    exact Nat.le_refl _
  refine (passes_next (atText_cons rfl _) (List.cons_ne_nil _ _) hhead hdash
    (Nat.lt_succ_self _)).trans ?_
  exact passes_blank hrest

end Scan

open Scan

/-! Texts of tidy values. -/

/-- The value is scanned into the tokens of its block behind the key of a member. -/
def ScansValue (v : Data) : Prop :=
  ∀ depth I T place k content, AtText content → k ≤ 2 * depth → 2 * depth ≤ place.column →
    ∃ line, Passes
      (quiet (valueChars depth v ++ (List.replicate k ' ' ++ content)) place false 0
        (2 * depth :: I) T)
      (quiet content ⟨line, k, k⟩ true 0 (2 * depth :: I) (T ++ blockTokens (node false .yaml v)))

/-- The members are scanned into the tokens of their block, up to its end. -/
def ScansMembers (members : List (Key × Data)) : Prop :=
  ∀ depth I J T T' place k content, Opens (2 * depth) I J T T' → place.column = 2 * depth →
    AtText content → k ≤ 2 * depth →
    ∃ line, Passes
      (quiet (membersChars depth members ++ (List.replicate k ' ' ++ content)) place true 0 J T)
      (quiet content ⟨line, k, k⟩ true 0 (2 * depth :: I)
        (T' ++ blockMembers (memberNodes false .yaml members)))

theorem scansValue_scalar {v : Data} {text : String} (hplain : IsPlain text.toList)
    (hchars : ∀ depth, valueChars depth v = ' ' :: text.toList ++ ['\n'])
    (hnode : node false .yaml v = .scalar true text) : ScansValue v := by
  intro depth I T place k content hcontent hk hplace
  have hscan := passes_scalar (I := I) (T := T) hplain hcontent hk hplace
  rw [String.ofList_toList] at hscan
  rw [hchars, hnode]
  refine ⟨place.line + 1, ?_⟩
  simpa only [List.append_assoc, List.cons_append, List.nil_append, blockTokens] using hscan

theorem atSpace_valueChars (depth : Nat) (v : Data) (rest : List Char) :
    atSpace (valueChars depth v ++ rest) = true := by
  cases v with
  | record members => cases members <;> rfl
  | list items => cases items <;> rfl
  | _ => rfl

theorem atText_membersChars {members : List (Key × Data)} (hne : members ≠ [])
    (hnames : Worded members) (depth : Nat) (rest : List Char) :
    AtText (membersChars depth members ++ rest) := by
  cases members with
  | nil => exact absurd rfl hne
  | cons member members =>
      obtain ⟨name, value, rfl, hname, -⟩ := hnames.uncons
      cases members with
      | nil =>
          rw [membersChars, List.append_assoc]
          exact (isWord.isPlain hname).atText _
      | cons next members =>
          rw [membersChars, List.append_assoc, List.append_assoc, List.append_assoc]
          · exact (isWord.isPlain hname).atText _
          · exact List.cons_ne_nil next members

theorem blockChars_record {members : List (Key × Data)} (hne : members ≠ []) (depth : Nat) :
    blockChars depth (.record members) = membersChars depth members := by
  cases members with
  | nil => exact absurd rfl hne
  | cons member members => rfl

theorem valueChars_record {members : List (Key × Data)} (hne : members ≠ []) (depth : Nat) :
    valueChars depth (.record members) =
      '\n' :: (indentation (depth + 1) ++ membersChars (depth + 1) members) := by
  cases members with
  | nil => exact absurd rfl hne
  | cons member members => rfl

theorem valueChars_list {items : List Data} (hne : items ≠ []) (depth : Nat) :
    valueChars depth (.list items) = '\n' :: (indentation depth ++ itemsChars depth items) := by
  cases items with
  | nil => exact absurd rfl hne
  | cons item items => rfl

/-- A member with its value, up to the text behind it. -/
theorem scans_member {value : Data} (hname : isWord name = true) (hvalue : ScansValue value)
    (h : Opens (2 * depth) I J T T') (hplace : place.column = 2 * depth) (hcontent : AtText content)
    (hk : k ≤ 2 * depth) :
    ∃ line, Passes
      (quiet (name.toList ++ ':' :: (valueChars depth value ++ (List.replicate k ' ' ++ content)))
        place true 0 J T)
      (quiet content ⟨line, k, k⟩ true 0 (2 * depth :: I)
        (T' ++ .key :: .scalar true name :: .value :: blockTokens (node false .yaml value))) := by
  rw [← hplace] at h
  have hkey := passes_key h hname (atSpace_valueChars depth value (List.replicate k ' ' ++ content))
  rw [hplace] at hkey
  obtain ⟨line, hvalue⟩ := hvalue depth I (T' ++ [.key, .scalar true name, .value])
    (place.right (name.toList.length + 1)) k content hcontent hk
    (hplace ▸ Nat.le_add_right place.column _)
  refine ⟨line, hkey.trans ?_⟩
  simpa only [List.append_assoc, List.cons_append, List.nil_append] using hvalue

theorem scans_members {members : List (Key × Data)} (hne : members ≠ [])
    (hnames : Worded members) (h : ∀ member ∈ members, ScansValue member.2) :
    ScansMembers members := by
  induction members with
  | nil => exact absurd rfl hne
  | cons member members ih =>
      intro depth I J T T' place k content hopens hplace hcontent hk
      obtain ⟨name, value, rfl, hname, hnamesRest⟩ := hnames.uncons
      obtain ⟨hvalue, hrest⟩ := List.forall_mem_cons.1 h
      cases members with
      | nil =>
          obtain ⟨line, hmember⟩ := scans_member hname hvalue hopens hplace hcontent hk
          refine ⟨line, ?_⟩
          simpa only [membersChars, memberNodes, blockMembers, blockTokens, Key.text,
            Bool.not_false, List.append_assoc, List.cons_append, List.nil_append,
            List.append_nil] using hmember
      | cons next members =>
          have hnext := List.cons_ne_nil next members
          obtain ⟨line, hmember⟩ := scans_member hname hvalue hopens hplace
            (atText_membersChars hnext hnamesRest depth (List.replicate k ' ' ++ content))
            (Nat.le_refl _)
          obtain ⟨last, hmembers⟩ := ih hnext hnamesRest hrest depth I (2 * depth :: I) _ _
            ⟨line, 2 * depth, 2 * depth⟩ k content (.further _) rfl hcontent hk
          refine ⟨last, ?_⟩
          rw [membersChars]
          · have hpasses := hmember.trans hmembers
            simpa only [memberNodes, blockMembers, blockTokens, Key.text, Bool.not_false,
              indentation, List.append_assoc, List.cons_append, List.nil_append,
              List.append_nil] using hpasses
          · exact hnext

/-- A record on lines of its own, with the end of its block. -/
theorem scans_block {members : List (Key × Data)} (h : ScansMembers members)
    (hI : ∀ i ∈ I.head?, i < 2 * depth) (hplace : place.column = 2 * depth)
    (hcontent : AtText content) (hk : k ≤ 2 * depth) (hleft : k < 2 * depth ∨ content = []) :
    ∃ line, Passes
      (quiet (membersChars depth members ++ (List.replicate k ' ' ++ content)) place true 0 I T)
      (quiet content ⟨line, k, k⟩ true 0 I
        (T ++ blockTokens (node false .yaml (.record members)))) := by
  obtain ⟨line, hmembers⟩ := h depth I I T _ place k content (.first T hI) hplace hcontent hk
  have hend : Passes
      (quiet content ⟨line, k, k⟩ true 0 (2 * depth :: I)
        (T ++ [.startMapping] ++ blockMembers (memberNodes false .yaml members)))
      (quiet content ⟨line, k, k⟩ true 0 I
        (T ++ [.startMapping] ++ blockMembers (memberNodes false .yaml members) ++ [.endBlock])) :=
    passes_endBlock hcontent hleft
  refine ⟨line, ?_⟩
  simpa only [node, blockTokens, List.append_assoc, List.cons_append, List.nil_append] using
    hmembers.trans hend

theorem scans_item {members : List (Key × Data)} (hne : members ≠ [])
    (hnames : Worded members) (h : ScansMembers members) (hplace : place.column = 2 * depth)
    (hcontent : AtText content) (hk : k ≤ 2 * depth) :
    ∃ line, Passes
      (quiet ('-' :: ' ' :: (blockChars (depth + 1) (.record members) ++
        (List.replicate k ' ' ++ content))) place true 0 (2 * depth :: I) T)
      (quiet content ⟨line, k, k⟩ true 0 (2 * depth :: I)
        (T ++ .dash :: blockTokens (node false .yaml (.record members)))) := by
  have hdash : Passes
      (quiet ('-' :: ' ' :: (membersChars (depth + 1) members ++ (List.replicate k ' ' ++ content)))
        place true 0 (place.column :: I) T)
      (quiet (membersChars (depth + 1) members ++ (List.replicate k ' ' ++ content))
        (place.right 2) true 0 (place.column :: I) (T ++ [.dash])) :=
    passes_dash (atText_membersChars hne hnames (depth + 1) _)
  rw [hplace] at hdash
  have hI : ∀ i ∈ (2 * depth :: I).head?, i < 2 * (depth + 1) := by
    rintro _ ⟨⟩
    omega
  have hcolumn : (place.right 2).column = 2 * (depth + 1) := by
    simp only [Place.right, hplace]
    omega
  obtain ⟨line, hblock⟩ := scans_block (T := T ++ [.dash]) h hI hcolumn hcontent
    (Nat.le_trans hk (by omega)) (.inl (by omega))
  refine ⟨line, ?_⟩
  rw [blockChars_record hne]
  simpa only [List.append_assoc, List.cons_append, List.nil_append] using hdash.trans hblock

theorem scans_items {items : List Data}
    (h : ∀ item ∈ items, ∃ members, item = .record members ∧ members ≠ [] ∧
      Worded members ∧ ScansMembers members)
    (hne : items ≠ []) (hplace : place.column = 2 * depth) (hcontent : AtText content)
    (hk : k ≤ 2 * depth) :
    ∃ line, Passes
      (quiet (itemsChars depth items ++ (List.replicate k ' ' ++ content)) place true 0
        (2 * depth :: I) T)
      (quiet content ⟨line, k, k⟩ true 0 (2 * depth :: I)
        (T ++ blockItems (itemNodes false .yaml items))) := by
  induction items generalizing place T with
  | nil => exact absurd rfl hne
  | cons item items ih =>
      obtain ⟨⟨members, hitem, hmembers, hnames, hscans⟩, hrest⟩ := List.forall_mem_cons.1 h
      subst hitem
      cases items with
      | nil =>
          obtain ⟨line, hscan⟩ := scans_item (T := T) (I := I) hmembers hnames hscans hplace
            hcontent hk
          refine ⟨line, ?_⟩
          simpa only [itemsChars, itemNodes, blockItems, List.append_assoc, List.cons_append,
            List.nil_append, List.append_nil] using hscan
      | cons next items =>
          have hdash : AtText (itemsChars depth (next :: items) ++ (List.replicate k ' ' ++
              content)) := by
            cases items <;> exact atText_cons rfl _
          obtain ⟨line, hscan⟩ := scans_item (T := T) (I := I) hmembers hnames hscans hplace
            hdash (Nat.le_refl _)
          have hcolumn : (⟨line, 2 * depth, 2 * depth⟩ : Place).column = 2 * depth := rfl
          obtain ⟨last, hscans⟩ := ih hrest (List.cons_ne_nil next items) hcolumn
          refine ⟨last, ?_⟩
          have hpasses := hscan.trans hscans
          simpa only [itemsChars, itemNodes, blockItems, indentation, List.append_assoc,
            List.cons_append, List.nil_append, List.append_nil] using hpasses

theorem scansValue_record {members : List (Key × Data)} (hne : members ≠ [])
    (hnames : Worded members) (h : ScansMembers members) : ScansValue (.record members) := by
  intro depth I T place k content hcontent hk hplace
  have hI : ∀ i ∈ (2 * depth :: I).head?, i < 2 * (depth + 1) := by
    rintro _ ⟨⟩
    omega
  obtain ⟨line, hblock⟩ := scans_block (T := T) h hI
    (rfl : (⟨place.line + 1, 2 * (depth + 1), 2 * (depth + 1)⟩ : Place).column = 2 * (depth + 1))
    hcontent (Nat.le_trans hk (by omega)) (.inl (by omega))
  have hpasses :=
    (passes_lineEnd (atText_membersChars hne hnames (depth + 1) _) (2 * (depth + 1))).trans hblock
  refine ⟨line, ?_⟩
  rw [valueChars_record hne]
  simpa only [indentation, List.append_assoc, List.cons_append, List.nil_append] using hpasses

theorem scansValue_list {items : List Data} (hne : items ≠ [])
    (h : ∀ item ∈ items, ∃ members, item = .record members ∧ members ≠ [] ∧
      Worded members ∧ ScansMembers members) : ScansValue (.list items) := by
  intro depth I T place k content hcontent hk hplace
  have hdash : AtText (itemsChars depth items ++ (List.replicate k ' ' ++ content)) := by
    cases items with
    | nil => exact absurd rfl hne
    | cons item items => cases items <;> exact atText_cons rfl _
  obtain ⟨line, hitems⟩ := scans_items (T := T) (I := I) h hne
    (rfl : (⟨place.line + 1, 2 * depth, 2 * depth⟩ : Place).column = 2 * depth) hcontent hk
  have hpasses := (passes_lineEnd hdash (2 * depth)).trans hitems
  refine ⟨line, ?_⟩
  rw [valueChars_list hne]
  simpa only [indentation, List.append_assoc, List.cons_append, List.nil_append, node,
    blockTokens] using hpasses

/-- A tidy value is scanned into the tokens of its block; the induction carries both places where a
record can stand. -/
theorem Tidy.scans {v : Data} (h : Tidy HasText v) : ScansValue v ∧
    ∀ members, v = .record members → members ≠ [] ∧ Worded members ∧ ScansMembers members := by
  induction h with
  | @integer n _ =>
      refine ⟨scansValue_scalar (isPlain_toString n) (fun _ => rfl) rfl, fun _ h => ?_⟩
      cases h
  | @real x hx =>
      refine ⟨scansValue_scalar (isPlain_render rfl hx) (fun _ => rfl) rfl, fun _ h => ?_⟩
      cases h
  | @word s hs =>
      refine ⟨scansValue_scalar (isWord.isPlain hs) (fun _ => rfl) rfl, fun _ h => ?_⟩
      cases h
  | list hne hrecords _ ih =>
      refine ⟨scansValue_list hne fun item hitem => ?_, fun _ h => ?_⟩
      · obtain ⟨members, hmembers⟩ := hrecords item hitem
        exact ⟨members, hmembers, (ih item hitem).2 members hmembers⟩
      · cases h
  | record hne hnames _ ih =>
      have hmembers := scans_members hne hnames fun member hmember => (ih member hmember).1
      refine ⟨scansValue_record hne hnames hmembers, fun _ h => ?_⟩
      cases h
      exact ⟨hne, hnames, hmembers⟩

/-- The text of a record is scanned into the tokens of its block. -/
theorem Tidy.tokens?_blockChars {members : List (Key × Data)} (h : Tidy HasText (.record members)) :
    tokens? (blockChars 0 (.record members)) =
      some (blockTokens (node false .yaml (.record members))) := by
  obtain ⟨hne, hnames, hscans⟩ := h.scans.2 members rfl
  have htext : AtText [] := by
    intro c hc
    cases hc
  have hI : ∀ i ∈ ([] : List Nat).head?, i < 2 * 0 := by
    intro i hi
    cases hi
  obtain ⟨line, hblock⟩ := scans_block (T := []) hscans hI
    (rfl : (Place.lineStart 0).column = 2 * 0) htext (Nat.le_refl _) (.inr rfl)
  simp only [Nat.mul_zero, List.replicate_zero, List.append_nil, List.nil_append] at hblock
  rw [blockChars_record hne]
  exact hblock.run_eq rfl fun n => run_quiet_nil n

end AtomArray.Yaml
