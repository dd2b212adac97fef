import AtomArray.Proofs.Yaml.Block
import AtomArray.Proofs.Yaml.Flow
import AtomArray.Yaml.Document

/-! Tidy records as documents: both texts of them are read as YAML. -/

namespace AtomArray.Yaml

open Data (Key)
open Json (lineBreak quote prettyChars prettyItems prettyMembers)

variable {c : Char} {cs : List Char}

/-- The characters of the texts that are written here: plain ASCII and line breaks. -/
def isShown (c : Char) : Bool := c = '\n' || 0x20 ≤ c.toNat && c.toNat ≤ 0x7e

theorem isPrintable_of_isShown (h : isShown c = true) : isPrintable c = true := by
  simp only [isShown, Bool.or_eq_true, Bool.and_eq_true, decide_eq_true_eq] at h
  simp only [isPrintable, Bool.or_eq_true, Bool.and_eq_true, decide_eq_true_eq]
  rcases h with rfl | h
  · decide
  · omega

theorem plainBreaks_of_isShown (h : cs.all isShown = true) : plainBreaks cs = cs := by
  induction cs with
  | nil => rfl
  | cons c cs ih =>
      rw [List.all_cons, Bool.and_eq_true_iff] at h
      have hne : ∀ d, isShown d = false → c ≠ d := by
        rintro d hd rfl
        rw [h.1] at hd
        cases hd
      have hbreak : ['\r', '\u0085', '\u2028', '\u2029'].contains c = false := by
        simp only [List.contains_eq_mem, decide_eq_false_iff_not, List.mem_cons, List.not_mem_nil,
          or_false, not_or]
        exact ⟨hne _ rfl, hne _ rfl, hne _ rfl, hne _ rfl⟩
      rw [plainBreaks]
      · rw [hbreak, ih h.2]
        rfl
      · intro rest hc
        exact absurd hc (hne '\r' rfl)

theorem read?_of_isShown {text : String} (h : text.toList.all isShown = true) :
    read? text = (tokens? text.toList).bind ofTokens? := by
  have hprintable : text.toList.all isPrintable = true :=
    List.all_eq_true.2 fun c hc => isPrintable_of_isShown (List.all_eq_true.1 h c hc)
  rw [read?, if_pos hprintable, plainBreaks_of_isShown h]

theorem all_isShown_of_isSafe (h : cs.all isSafe = true) : cs.all isShown = true := by
  refine List.all_eq_true.2 fun c hc => ?_
  have hrange := toNat_of_isSafe (List.all_eq_true.1 h c hc)
  simp only [isShown, Bool.or_eq_true, Bool.and_eq_true, decide_eq_true_eq]
  omega

theorem all_isShown_blanks (n : Nat) : (List.replicate n ' ').all isShown = true :=
  List.all_eq_true.2 fun c hc => by
    rw [List.eq_of_mem_replicate hc]
    rfl

/-! Blocks. -/

theorem all_isShown_scalar {v : Data} {depth : Nat} (h : (scalarChars v).all isSafe = true)
    (hvalue : valueChars depth v = ' ' :: scalarChars v ++ ['\n'])
    (hblock : blockChars depth v = scalarChars v ++ ['\n']) :
    (valueChars depth v).all isShown = true ∧ (blockChars depth v).all isShown = true := by
  have hshown := all_isShown_of_isSafe h
  rw [hvalue, hblock, List.all_append, List.all_append, List.all_cons, hshown]
  exact ⟨rfl, rfl⟩

theorem all_isShown_membersChars {members : List (Key × Data)}
    (hnames : Worded members)
    (h : ∀ member ∈ members, ∀ depth, (valueChars depth member.2).all isShown = true)
    (depth : Nat) : (membersChars depth members).all isShown = true := by
  induction members with
  | nil => rfl
  | cons member members ih =>
      obtain ⟨name, value, rfl, hname, hnamesRest⟩ := hnames.uncons
      obtain ⟨hvalue, hrest⟩ := List.forall_mem_cons.1 h
      have hword : (Key.name name).text.toList.all isShown = true :=
        all_isShown_of_isSafe (isWord.isSafe hname)
      cases members with
      | nil =>
          rw [membersChars, List.all_append, List.all_cons, hword, hvalue depth]
          rfl
      | cons next members =>
          rw [membersChars]
          · rw [List.all_append, List.all_append, List.all_append, List.all_cons, hword,
              hvalue depth, indentation, all_isShown_blanks, ih hnamesRest hrest]
            rfl
          · exact List.cons_ne_nil next members

theorem all_isShown_itemsChars {items : List Data}
    (h : ∀ item ∈ items, ∀ depth, (blockChars depth item).all isShown = true) (depth : Nat) :
    (itemsChars depth items).all isShown = true := by
  induction items with
  | nil => rfl
  | cons item items ih =>
      obtain ⟨hitem, hrest⟩ := List.forall_mem_cons.1 h
      cases items with
      | nil =>
          rw [itemsChars, List.all_cons, List.all_cons, hitem]
          rfl
      | cons next items =>
          rw [itemsChars]
          · rw [List.all_append, List.all_append, List.all_cons, List.all_cons, hitem, indentation,
              all_isShown_blanks, ih hrest]
            rfl
          · exact List.cons_ne_nil next items

theorem Tidy.all_isShown_block {v : Data} (h : Tidy HasText v) (depth : Nat) :
    (valueChars depth v).all isShown = true ∧ (blockChars depth v).all isShown = true := by
  induction h generalizing depth with
  | @integer n _ => exact all_isShown_scalar (isPlain_toString n).safe rfl rfl
  | @real x hx => exact all_isShown_scalar (isPlain_render rfl hx).safe rfl rfl
  | word hs => exact all_isShown_scalar (isWord.isSafe hs) rfl rfl
  | @list items hne _ _ ih =>
      have hitems := all_isShown_itemsChars fun item hitem depth => (ih item hitem depth).2
      cases items with
      | nil => exact absurd rfl hne
      | cons item items =>
          refine ⟨?_, hitems depth⟩
          rw [valueChars, List.all_append, List.all_cons, indentation, all_isShown_blanks, hitems]
          rfl
  | @record members hne hnames _ ih =>
      have hmembers := all_isShown_membersChars hnames fun member hmember depth =>
        (ih member hmember depth).1
      cases members with
      | nil => exact absurd rfl hne
      | cons member members =>
          refine ⟨?_, hmembers depth⟩
          rw [valueChars, List.all_append, List.all_cons, indentation, all_isShown_blanks, hmembers]
          rfl

/-- The YAML text of a tidy record is read as its node, with words without quotes. -/
theorem Tidy.read?_write {members : List (Key × Data)} (h : Tidy HasText (.record members)) :
    read? (write (.record members)) = some (node false .yaml (.record members)) := by
  have htext : (write (.record members)).toList = blockChars 0 (.record members) :=
    String.toList_ofList
  have hshown : (write (.record members)).toList.all isShown = true := by
    rw [htext]
    exact (h.all_isShown_block 0).2
  rw [read?_of_isShown hshown, htext, h.tokens?_blockChars, Option.bind_some]
  exact h.ofTokens?_blockTokens false .yaml

/-! Brackets. -/

theorem all_isShown_lineBreak (depth : Nat) : (lineBreak depth).all isShown = true := by
  rw [lineBreak, List.all_cons, all_isShown_blanks]
  rfl

theorem all_isShown_quote {name : String} (hname : isWord name = true) :
    (quote name).all isShown = true := by
  rw [Scan.quote_word hname, List.all_cons, List.all_append,
    all_isShown_of_isSafe (isWord.isSafe hname)]
  rfl

theorem all_isShown_prettyMembers {members : List (Key × Data)}
    (hnames : Worded members)
    (h : ∀ member ∈ members, ∀ depth, (prettyChars depth member.2).all isShown = true)
    (depth : Nat) : (prettyMembers depth members).all isShown = true := by
  induction members with
  | nil => rfl
  | cons member members ih =>
      obtain ⟨name, value, rfl, hname, hnamesRest⟩ := hnames.uncons
      obtain ⟨hvalue, hrest⟩ := List.forall_mem_cons.1 h
      have hquote : (quote (Key.name name).text).all isShown = true := all_isShown_quote hname
      cases members with
      | nil =>
          rw [prettyMembers, List.all_append, List.all_append, List.all_cons, List.all_cons, hquote,
            all_isShown_lineBreak, hvalue]
          rfl
      | cons next members =>
          rw [prettyMembers]
          · rw [List.all_append, List.all_append, List.all_append, List.all_cons, List.all_cons,
              List.all_cons, hquote, all_isShown_lineBreak, hvalue, ih hnamesRest hrest]
            rfl
          · exact List.cons_ne_nil next members

theorem all_isShown_prettyItems {items : List Data}
    (h : ∀ item ∈ items, ∀ depth, (prettyChars depth item).all isShown = true) (depth : Nat) :
    (prettyItems depth items).all isShown = true := by
  induction items with
  | nil => rfl
  | cons item items ih =>
      obtain ⟨hitem, hrest⟩ := List.forall_mem_cons.1 h
      cases items with
      | nil => rw [prettyItems, List.all_append, hitem, all_isShown_lineBreak, Bool.and_true]
      | cons next items =>
          rw [prettyItems]
          · rw [List.all_append, List.all_append, List.all_cons, hitem, all_isShown_lineBreak,
              ih hrest]
            rfl
          · exact List.cons_ne_nil next items

theorem Tidy.all_isShown_flow {v : Data} (h : Tidy HasText v) (depth : Nat) :
    (prettyChars depth v).all isShown = true := by
  induction h generalizing depth with
  | @integer n _ => exact all_isShown_of_isSafe (isPlain_toString n).safe
  | @real x hx =>
      have hnumber : prettyChars depth (.real x) = (Decimal.Style.json.render x).toList := if_pos hx
      rw [hnumber]
      exact all_isShown_of_isSafe (isPlain_render rfl hx).safe
  | word hs => exact all_isShown_quote hs
  | list hne _ _ ih =>
      rw [prettyChars_list hne, List.all_append, List.all_append, List.all_cons,
        all_isShown_prettyItems ih, all_isShown_lineBreak]
      rfl
  | record hne hnames _ ih =>
      rw [prettyChars_record hne, List.all_append, List.all_append, List.all_cons,
        all_isShown_prettyMembers hnames ih, all_isShown_lineBreak]
      rfl

/-- The JSON text of a tidy record is read as its node, with words in quotes. -/
theorem Tidy.read?_pretty {members : List (Key × Data)} (h : Tidy HasText (.record members)) :
    read? (Json.pretty (.record members)) = some (node true .json (.record members)) := by
  have htext : (Json.pretty (.record members)).toList = prettyChars 0 (.record members) :=
    String.toList_ofList
  have hshown : (Json.pretty (.record members)).toList.all isShown = true := by
    rw [htext]
    exact h.all_isShown_flow 0
  rw [read?_of_isShown hshown, htext, h.tokens?_prettyChars, Option.bind_some]
  exact ofTokens?_flowTokens _

end AtomArray.Yaml
