import AtomArray.Proofs.Yaml.Resolution
import AtomArray.Proofs.Yaml.Scalars

/-! The values that YAML text can hold without quotes, and the nodes that they are read as. -/

namespace AtomArray.Yaml

open Data (Key)
open Decimal (Style)

/-- Small letters and underscores, which stand for nothing but themselves; short enough to be a
key. -/
def isWord (s : String) : Bool :=
  s.toList.all (fun c => c.isLower || c = '_') && 0 < s.toList.length && s.toList.length ≤ 1000 &&
    (resolve s).text? == some s

/-- Finite doubles have a text in every style. -/
def HasText (x : Float) : Prop := x.isFinite = true

/-- Doubles that keep their value in the text of a style. -/
def Kept (style : Style) (x : Float) : Prop := HasText x ∧ Keeps style x

/-- The members have words for names. -/
def Worded (members : List (Key × Data)) : Prop :=
  ∀ member ∈ members, ∃ name, member.1 = .name name ∧ isWord name = true

theorem Worded.uncons {member : Key × Data} {members : List (Key × Data)}
    (h : Worded (member :: members)) :
    ∃ name value, member = (.name name, value) ∧ isWord name = true ∧ Worded members := by
  obtain ⟨⟨name, hkey, hname⟩, hmembers⟩ := List.forall_mem_cons.1 h
  exact ⟨name, member.2, congrArg (·, member.2) hkey, hname, hmembers⟩

/-- Numbers and words, lists of records, and records with words for names, none of them empty. All
doubles in them have some property. -/
inductive Tidy (P : Float → Prop) : Data → Prop
  | integer {n : Int} : Decimal.Is64Bit n → Tidy P (.integer n)
  | real {x : Float} : P x → Tidy P (.real x)
  | word {s : String} : isWord s = true → Tidy P (.text s)
  | list {items : List Data} : items ≠ [] →
      (∀ item ∈ items, ∃ members, item = .record members) →
      (∀ item ∈ items, Tidy P item) → Tidy P (.list items)
  | record {members : List (Key × Data)} : members ≠ [] → Worded members →
      (∀ member ∈ members, Tidy P member.2) → Tidy P (.record members)

namespace Tidy

variable {P Q : Float → Prop} {v : Data} {name : String}

theorem single (hname : isWord name = true) (hv : Tidy P v) :
    Tidy P (.record [(.name name, v)]) :=
  .record (List.cons_ne_nil _ _) (List.forall_mem_singleton.2 ⟨name, rfl, hname⟩)
    (List.forall_mem_singleton.2 hv)

theorem member {members : List (Key × Data)} (hname : isWord name = true) (hv : Tidy P v)
    (h : Tidy P (.record members)) :
    Tidy P (.record ((.name name, v) :: members)) := by
  cases h with
  | record _ hnames h =>
      refine .record (List.cons_ne_nil _ _) ?_ (List.forall_mem_cons.2 ⟨hv, h⟩)
      exact List.forall_mem_cons.2 ⟨⟨name, rfl, hname⟩, hnames⟩

theorem mono (hPQ : ∀ x, P x → Q x) (h : Tidy P v) : Tidy Q v := by
  induction h with
  | integer h => exact .integer h
  | real hx => exact .real (hPQ _ hx)
  | word hs => exact .word hs
  | list hne hrecords _ ih => exact .list hne hrecords ih
  | record hne hnames _ ih => exact .record hne hnames ih

end Tidy

/-! Words. -/

section words

variable {s : String} (h : isWord s = true)
include h

theorem isWord.parts : s.toList.all (fun c => c.isLower || c = '_') = true ∧
    0 < s.toList.length ∧ s.toList.length ≤ 1000 ∧ resolve s = .text s := by
  simp only [isWord, Bool.and_eq_true, decide_eq_true_eq, beq_iff_eq] at h
  obtain ⟨⟨⟨hchars, hpos⟩, hlength⟩, hresolve⟩ := h
  refine ⟨hchars, hpos, hlength, ?_⟩
  cases hvalue : resolve s with
  | text t =>
      rw [hvalue] at hresolve
      exact congrArg Data.text (Option.some.inj hresolve)
  | _ =>
      rw [hvalue] at hresolve
      cases hresolve

theorem isWord.isSafe : s.toList.all isSafe = true := by
  refine List.all_eq_true.2 fun c hc => ?_
  have hchar := List.all_eq_true.1 (isWord.parts h).1 c hc
  rw [Bool.or_eq_true_iff, decide_eq_true_iff] at hchar
  rcases hchar with hlower | rfl
  · rw [Yaml.isSafe, hlower, Bool.true_or, Bool.true_or]
  · rfl

/-- A word starts with a letter or an underscore, and so with no mark of a document. -/
theorem isWord.unmarked (place : Place) : Unmarked place s.toList := by
  refine .inr fun c hc => ?_
  have hchar := List.all_eq_true.1 (isWord.parts h).1 c (List.mem_of_mem_head? hc)
  constructor
  · rintro rfl
    exact absurd hchar (by decide)
  · rintro rfl
    exact absurd hchar (by decide)

theorem isWord.isPlain : IsPlain s.toList := by
  obtain ⟨c, cs, hcs⟩ := List.exists_cons_of_length_pos (isWord.parts h).2.1
  have hsafe := isWord.isSafe h
  have hchars := (isWord.parts h).1
  refine ⟨hsafe, c, cs, hcs, fun hc => ?_⟩
  rw [hcs, hc] at hchars
  cases hchars

end words

/-! Nodes. -/

mutual

/-- What a value is read as. Names and texts are in quotes or not; numbers never are. -/
def node (quoted : Bool) (style : Style) : Data → Yaml
  | .integer n => .scalar true (toString n)
  | .real x => .scalar true (style.render x)
  | .text s => .scalar (!quoted) s
  | .list items => .list (itemNodes quoted style items)
  | .record members => .mapping (memberNodes quoted style members)
  | .null | .bool _ | .unreadable => absent

def itemNodes (quoted : Bool) (style : Style) : List Data → List Yaml
  | [] => []
  | item :: rest => node quoted style item :: itemNodes quoted style rest

def memberNodes (quoted : Bool) (style : Style) : List (Key × Data) → List (Yaml × Yaml)
  | [] => []
  | (key, value) :: rest =>
    (.scalar (!quoted) key.text, node quoted style value) :: memberNodes quoted style rest

end

variable {quoted : Bool} {style : Style} {v : Data}

theorem itemNodes_eq (quoted : Bool) (style : Style) (items : List Data) :
    itemNodes quoted style items = items.map (node quoted style) := by
  induction items with
  | nil => rfl
  | cons item rest ih => rw [itemNodes, ih, List.map_cons]

theorem memberNodes_eq (quoted : Bool) (style : Style) (members : List (Key × Data)) :
    memberNodes quoted style members = members.map fun member =>
      (.scalar (!quoted) member.1.text, node quoted style member.2) := by
  induction members with
  | nil => rfl
  | cons member rest ih => rw [memberNodes, ih, List.map_cons]

theorem toKey_scalar {name : String} (h : isWord name = true) (quoted : Bool) :
    (scalar (!quoted) name).toKey = .name name := by
  cases quoted with
  | true => rfl
  | false =>
      rw [Bool.not_false, toKey, (isWord.parts h).2.2.2]

theorem itemsToData_itemNodes {items : List Data}
    (h : ∀ item ∈ items, (node quoted style item).toData = item) :
    itemsToData (itemNodes quoted style items) = items := by
  induction items with
  | nil => rfl
  | cons item rest ih =>
      obtain ⟨hitem, hrest⟩ := List.forall_mem_cons.1 h
      rw [itemNodes, itemsToData, hitem, ih hrest]

theorem membersToData_memberNodes {members : List (Key × Data)}
    (hnames : Worded members)
    (h : ∀ member ∈ members, (node quoted style member.2).toData = member.2) :
    membersToData (memberNodes quoted style members) = members := by
  induction members with
  | nil => rfl
  | cons member rest ih =>
      obtain ⟨name, value, rfl, hname, hnamesRest⟩ := hnames.uncons
      obtain ⟨hvalue, hrest⟩ := List.forall_mem_cons.1 h
      rw [memberNodes, membersToData, hvalue, ih hnamesRest hrest, Key.text, toKey_scalar hname]

/-- A tidy value is what its node amounts to. -/
theorem Tidy.toData_node (h : Tidy (Kept style) v) (hpoint : style.pointZero = true)
    (quoted : Bool) : (node quoted style v).toData = v := by
  induction h with
  | integer hn => rw [node, toData, resolve_toString hn]
  | real hx => rw [node, toData, resolve_render hpoint hx.1 hx.2]
  | word hs =>
      rw [node]
      cases quoted with
      | true => rfl
      | false => rw [Bool.not_false, toData, (isWord.parts hs).2.2.2]
  | list _ _ _ ih => rw [node, toData, itemsToData_itemNodes ih]
  | record _ hnames _ ih => rw [node, toData, membersToData_memberNodes hnames ih]

theorem fitsItems_itemNodes {n : Nat} {items : List Data}
    (h : ∀ item ∈ items, item.fits n = true → (node quoted style item).fits n = true)
    (hfits : Data.fitsItems n items = true) :
    fitsItems n (itemNodes quoted style items) = true := by
  induction items with
  | nil => rfl
  | cons item rest ih =>
      obtain ⟨hitem, hrest⟩ := List.forall_mem_cons.1 h
      rw [Data.fitsItems, Bool.and_eq_true] at hfits
      rw [itemNodes, fitsItems, hitem hfits.1, ih hrest hfits.2]
      rfl

theorem fits_scalar_name {name : String} (h : isWord name = true) (quoted : Bool) (n : Nat) :
    (scalar (!quoted) name).fits n = true := by
  cases quoted with
  | true => rw [Bool.not_true, fits]
  | false =>
      rw [Bool.not_false, fits, (isWord.parts h).2.2.2]
      rfl

theorem fitsMembers_memberNodes {n : Nat} {members : List (Key × Data)}
    (hnames : Worded members) (h : ∀ member ∈ members,
      member.2.fits n = true → (node quoted style member.2).fits n = true)
    (hfits : Data.fitsMembers n members = true) :
    fitsMembers n (memberNodes quoted style members) = true := by
  induction members with
  | nil => rfl
  | cons member rest ih =>
      obtain ⟨name, value, rfl, hname, hnamesRest⟩ := hnames.uncons
      obtain ⟨hvalue, hrest⟩ := List.forall_mem_cons.1 h
      rw [Data.fitsMembers, Bool.and_eq_true] at hfits
      rw [memberNodes, fitsMembers, hvalue hfits.1, ih hnamesRest hrest hfits.2, Key.text,
        fits_scalar_name hname]
      rfl

/-- A node is read as a whole if its value is. -/
theorem Tidy.fits_node (h : Tidy (Kept style) v) (hpoint : style.pointZero = true) (quoted : Bool)
    {n : Nat} (hfits : v.fits n = true) : (node quoted style v).fits n = true := by
  induction h generalizing n with
  | integer hn =>
      rw [node, fits, resolve_toString hn]
      rfl
  | real hx =>
      rw [node, fits, resolve_render hpoint hx.1 hx.2]
      rfl
  | word hs => exact fits_scalar_name hs quoted n
  | list _ _ _ ih =>
      cases n with
      | zero => cases hfits
      | succ n => exact fitsItems_itemNodes (fun item hitem => ih item hitem) hfits
  | record _ hnames _ ih =>
      cases n with
      | zero => cases hfits
      | succ n =>
          exact fitsMembers_memberNodes hnames (fun member hmember => ih member hmember) hfits

end AtomArray.Yaml
