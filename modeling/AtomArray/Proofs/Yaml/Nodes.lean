import AtomArray.Proofs.Yaml.Tidy
import AtomArray.Yaml.Nesting

/-! Nodes as tokens, in brackets and in blocks, and the nodes that are read from these tokens. -/

namespace AtomArray.Yaml

open Decimal (Style)

/-- The tokens that a node can start with. -/
def startsNode : Token → Bool
  | .scalar _ _ | .openList | .openMapping | .startMapping => true
  | _ => false

theorem atOneOf_of_startsNode {t : Token} {ends : List Token} (h : startsNode t = true)
    (hends : ends.all (!startsNode ·) = true) (ts : List Token) :
    atOneOf ends (t :: ts) = false := by
  change ends.contains t = false
  rw [List.contains_eq_mem, decide_eq_false_iff_not]
  intro hmem
  have hnot := List.all_eq_true.1 hends t hmem
  rw [h] at hnot
  cases hnot

/-! Brackets. -/

mutual

def flowTokens : Yaml → List Token
  | .scalar plain text => [.scalar plain text]
  | .list items => .openList :: flowItems items ++ [.closeList]
  | .mapping members => .openMapping :: flowMembers members ++ [.closeMapping]

def flowItems : List Yaml → List Token
  | [] => []
  | [item] => flowTokens item
  | item :: rest => flowTokens item ++ .comma :: flowItems rest

def flowMembers : List (Yaml × Yaml) → List Token
  | [] => []
  | [(key, value)] => .key :: flowTokens key ++ .value :: flowTokens value
  | (key, value) :: rest =>
    .key :: flowTokens key ++ .value :: flowTokens value ++ .comma :: flowMembers rest

end

theorem exists_flowTokens_eq_cons (y : Yaml) :
    ∃ t ts, flowTokens y = t :: ts ∧ startsNode t = true := by
  cases y with
  | scalar plain text => exact ⟨_, _, rfl, rfl⟩
  | list items => exact ⟨.openList, _, rfl, rfl⟩
  | mapping members => exact ⟨.openMapping, _, rfl, rfl⟩

variable {n : Nat} {y key value : Yaml} {rest : List Token}

/-- Enough fuel reads the node from its tokens, in brackets or not, and leaves what follows. -/
def ReadsFlow (y : Yaml) : Prop :=
  ∀ brackets n rest, 4 * (flowTokens y).length ≤ n →
    readNode brackets n (flowTokens y ++ rest) = some (y, rest)

theorem ReadsFlow.readOptional (h : ReadsFlow y) (ends : List Token)
    (hends : ends.all (!startsNode ·) = true) (hn : 4 * (flowTokens y).length ≤ n)
    (rest : List Token) :
    readOptional true ends (n + 1) (flowTokens y ++ rest) = some (y, rest) := by
  have hread := h true n rest hn
  obtain ⟨t, ts, hts, ht⟩ := exists_flowTokens_eq_cons y
  rw [hts, List.cons_append] at hread ⊢
  rw [Yaml.readOptional, atOneOf_of_startsNode ht hends, if_neg Bool.false_ne_true, hread]

/-- An item without a key, and what may follow it. -/
theorem readItems_cons {t : Token} (ht : startsNode t = true) (n : Nat) (ts : List Token) :
    readItems (n + 1) (t :: ts) = (readNode true n (t :: ts)).bind fun (item, rest) =>
      match rest with
      | .comma :: rest => do
        let (items, rest) ← readItems n rest
        return (item :: items, rest)
      | .closeList :: rest => return ([item], rest)
      | _ => none := by
  cases t with
  | scalar | openList | openMapping | startMapping => rfl
  | _ => cases ht

theorem ReadsFlow.readItems_comma {items : List Yaml} {ts : List Token} (h : ReadsFlow y)
    (hn : 4 * (flowTokens y).length ≤ n) (hrest : readItems n ts = some (items, rest)) :
    readItems (n + 1) (flowTokens y ++ .comma :: ts) = some (y :: items, rest) := by
  have hread := h true n (.comma :: ts) hn
  obtain ⟨t, tail, htail, ht⟩ := exists_flowTokens_eq_cons y
  rw [htail, List.cons_append] at hread ⊢
  rw [readItems_cons ht, hread, Option.bind_some]
  dsimp only
  rw [hrest]
  rfl

theorem ReadsFlow.readItems_close (h : ReadsFlow y) (hn : 4 * (flowTokens y).length ≤ n) :
    readItems (n + 1) (flowTokens y ++ .closeList :: rest) = some ([y], rest) := by
  have hread := h true n (.closeList :: rest) hn
  obtain ⟨t, tail, htail, ht⟩ := exists_flowTokens_eq_cons y
  rw [htail, List.cons_append] at hread ⊢
  rw [readItems_cons ht, hread]
  rfl

/-- A member with its key and value, and what may follow it. -/
theorem readMembers_cons (hkey : ReadsFlow key) (hvalue : ReadsFlow value)
    (hn : 4 * ((flowTokens key).length + (flowTokens value).length + 2) ≤ n) (ts : List Token) :
    readMembers (n + 1) (.key :: (flowTokens key ++ .value :: (flowTokens value ++ ts))) =
      match ts with
      | .comma :: rest => do
        let (members, rest) ← readMembers n rest
        return ((key, value) :: members, rest)
      | .closeMapping :: rest => some ([(key, value)], rest)
      | _ => none := by
  obtain ⟨n, rfl⟩ : ∃ m, n = m + 2 := ⟨n - 2, by omega⟩
  have hreadKey := hkey.readOptional [.value, .comma, .closeMapping] rfl (n := n + 1) (by omega)
    (.value :: (flowTokens value ++ ts))
  have hreadValue := hvalue.readOptional [.comma, .closeMapping] rfl (n := n) (by omega) ts
  rw [readMembers]
  dsimp only
  rw [hreadKey]
  change (readOptional true [.comma, .closeMapping] (n + 1) (flowTokens value ++ ts)).bind _ = _
  rw [hreadValue]
  rfl

mutual

theorem readNode_flow : ∀ y, ReadsFlow y
  | .scalar plain text => by
      intro brackets n rest hn
      obtain ⟨n, rfl⟩ : ∃ m, n = m + 1 := ⟨n - 1, by simp only [flowTokens] at hn; grind⟩
      cases brackets <;> rfl
  | .list items => by
      intro brackets n rest hn
      simp only [flowTokens, List.length_append, List.length_cons] at hn
      obtain ⟨n, rfl⟩ : ∃ m, n = m + 1 := ⟨n - 1, by omega⟩
      have hread := readItems_flow items n rest (by omega)
      simp only [flowTokens, List.append_assoc, List.cons_append, List.nil_append]
      cases brackets <;> rw [readNode, hread] <;> rfl
  | .mapping members => by
      intro brackets n rest hn
      simp only [flowTokens, List.length_append, List.length_cons] at hn
      obtain ⟨n, rfl⟩ : ∃ m, n = m + 1 := ⟨n - 1, by omega⟩
      have hread := readMembers_flow members n rest (by omega)
      simp only [flowTokens, List.append_assoc, List.cons_append, List.nil_append]
      cases brackets <;> rw [readNode, hread] <;> rfl

theorem readItems_flow : ∀ items n rest, 4 * (flowItems items).length < n →
    readItems n (flowItems items ++ .closeList :: rest) = some (items, rest)
  | [], n + 1, rest, _ => rfl
  | [item], n + 1, rest, hn => by
      simp only [flowItems] at hn
      exact (readNode_flow item).readItems_close (by omega)
  | item :: next :: items, n + 1, rest, hn => by
      simp only [flowItems, List.length_append, List.length_cons] at hn
      have hrest := readItems_flow (next :: items) n rest (by omega)
      rw [flowItems]
      · rw [List.append_assoc, List.cons_append]
        exact (readNode_flow item).readItems_comma (by omega) hrest
      · exact List.cons_ne_nil next items

theorem readMembers_flow : ∀ members n rest, 4 * (flowMembers members).length < n →
    readMembers n (flowMembers members ++ .closeMapping :: rest) = some (members, rest)
  | [], n + 1, rest, _ => rfl
  | [(key, value)], n + 1, rest, hn => by
      simp only [flowMembers, List.length_append, List.length_cons] at hn
      simp only [flowMembers, List.append_assoc, List.cons_append]
      exact readMembers_cons (readNode_flow key) (readNode_flow value) (by omega) _
  | (key, value) :: next :: members, n + 1, rest, hn => by
      simp only [flowMembers, List.length_append, List.length_cons] at hn
      have hrest := readMembers_flow (next :: members) n rest (by omega)
      rw [flowMembers]
      · simp only [List.append_assoc, List.cons_append]
        rw [readMembers_cons (readNode_flow key) (readNode_flow value) (by omega)]
        dsimp only
        rw [hrest]
        rfl
      · exact List.cons_ne_nil next members

end

/-! Blocks. -/

mutual

/-- A list stands in the column of its key, and so is no block of its own. -/
def blockTokens : Yaml → List Token
  | .scalar plain text => [.scalar plain text]
  | .list items => blockItems items
  | .mapping members => .startMapping :: blockMembers members ++ [.endBlock]

def blockItems : List Yaml → List Token
  | [] => []
  | item :: rest => .dash :: blockTokens item ++ blockItems rest

def blockMembers : List (Yaml × Yaml) → List Token
  | [] => []
  | (key, value) :: rest =>
    .key :: blockTokens key ++ .value :: blockTokens value ++ blockMembers rest

end

/-- No further item of a list comes next. -/
def EndsItems (rest : List Token) : Prop := ∀ t ∈ rest.head?, t ≠ .dash

/-- Enough fuel reads the node from its tokens in a block. No list can be read so. -/
def ReadsBlock (y : Yaml) : Prop :=
  ∀ n rest, 4 * (blockTokens y).length ≤ n + 2 →
    readNode false n (blockTokens y ++ rest) = some (y, rest)

/-- Enough fuel reads the node from its tokens where a key or a value is wanted. -/
def ReadsPart (y : Yaml) : Prop :=
  ∀ n rest, EndsItems rest → 4 * (blockTokens y).length ≤ n →
    readMemberPart n (blockTokens y ++ rest) = some (y, rest)

theorem ReadsBlock.readOptional {t : Token} {tail : List Token} (h : ReadsBlock y)
    (htail : blockTokens y = t :: tail) (ht : startsNode t = true) (ends : List Token)
    (hends : ends.all (!startsNode ·) = true) (hn : 4 * (blockTokens y).length ≤ n + 2)
    (rest : List Token) :
    readOptional false ends (n + 1) (blockTokens y ++ rest) = some (y, rest) := by
  have hread := h n rest hn
  rw [htail, List.cons_append] at hread ⊢
  rw [Yaml.readOptional, atOneOf_of_startsNode ht hends, if_neg Bool.false_ne_true, hread]

/-- A value that is no list is read as a part of its member. -/
theorem ReadsBlock.readsPart {t : Token} {tail : List Token} (h : ReadsBlock y)
    (htail : blockTokens y = t :: tail) (ht : startsNode t = true) : ReadsPart y := by
  intro n rest _ hn
  have hlength : 1 ≤ (blockTokens y).length := by
    rw [htail, List.length_cons]
    omega
  obtain ⟨n, rfl⟩ : ∃ m, n = m + 2 := ⟨n - 2, by omega⟩
  have hread := h.readOptional htail ht [.key, .value, .endBlock] rfl hn rest
  have hdash : atOneOf [.dash] (blockTokens y ++ rest) = false := by
    rw [htail, List.cons_append, atOneOf_of_startsNode ht rfl]
  rw [readMemberPart, hdash, if_neg Bool.false_ne_true, hread]

theorem readsBlock_scalar (plain : Bool) (text : String) : ReadsBlock (.scalar plain text) := by
  intro n rest hn
  obtain ⟨n, rfl⟩ : ∃ m, n = m + 1 := ⟨n - 1, by simp only [blockTokens] at hn; grind⟩
  rfl

theorem readsPart_scalar (plain : Bool) (text : String) : ReadsPart (.scalar plain text) :=
  (readsBlock_scalar plain text).readsPart rfl rfl

/-- The items of a list, each of them a block. -/
theorem readLevelItems_block {items : List Yaml}
    (h : ∀ item ∈ items, ReadsBlock item ∧
      ∃ t tail, blockTokens item = t :: tail ∧ startsNode t = true)
    (hrest : EndsItems rest) (hpos : 0 < n) (hn : 4 * (blockItems items).length ≤ n + 2) :
    readLevelItems n (blockItems items ++ rest) = some (items, rest) := by
  induction items generalizing n with
  | nil =>
      obtain ⟨n, rfl⟩ : ∃ m, n = m + 1 := ⟨n - 1, by omega⟩
      rw [blockItems, List.nil_append, readLevelItems]
      exact fun _ htail => hrest .dash (by rw [htail]; rfl) rfl
  | cons item items ih =>
      simp only [blockItems, List.length_append, List.length_cons] at hn
      obtain ⟨⟨hitem, t, tail, htail, ht⟩, hitems⟩ := List.forall_mem_cons.1 h
      obtain ⟨n, rfl⟩ : ∃ m, n = m + 2 := ⟨n - 2, by omega⟩
      have hread := hitem.readOptional htail ht [.dash, .key, .value, .endBlock] rfl (n := n)
        (by omega) (blockItems items ++ rest)
      have hreadItems := ih hitems (n := n + 1) (by omega) (by omega)
      rw [blockItems, List.append_assoc, List.cons_append, readLevelItems, hread]
      change (readLevelItems (n + 1) (blockItems items ++ rest)).bind _ = _
      rw [hreadItems]
      rfl

theorem readsPart_list {items : List Yaml} (hne : items ≠ [])
    (h : ∀ item ∈ items, ReadsBlock item ∧
      ∃ t tail, blockTokens item = t :: tail ∧ startsNode t = true) :
    ReadsPart (.list items) := by
  intro n rest hrest hn
  cases items with
  | nil => exact absurd rfl hne
  | cons item items =>
      rw [blockTokens] at hn ⊢
      have hlength : 1 ≤ (blockItems (item :: items)).length := by
        simp only [blockItems, List.length_append, List.length_cons]
        omega
      obtain ⟨n, rfl⟩ : ∃ m, n = m + 1 := ⟨n - 1, by omega⟩
      have hdash : atOneOf [.dash] (blockItems (item :: items) ++ rest) = true := rfl
      rw [readMemberPart, hdash, if_pos rfl, readLevelItems_block h hrest (by omega) (by omega)]
      rfl

theorem endsItems_blockMembers (members : List (Yaml × Yaml)) (rest : List Token) :
    EndsItems (blockMembers members ++ .endBlock :: rest) := by
  intro t ht
  cases members with
  | nil =>
      obtain rfl : Token.endBlock = t := Option.some.inj ht
      exact (nomatch ·)
  | cons member members =>
      obtain rfl : Token.key = t := Option.some.inj ht
      exact (nomatch ·)

/-- The members of a mapping up to the end of its block. -/
theorem readBlockMembers_block {members : List (Yaml × Yaml)}
    (h : ∀ member ∈ members, ReadsPart member.1 ∧ ReadsPart member.2)
    (hn : 4 * (blockMembers members).length < n) (rest : List Token) :
    readBlockMembers n (blockMembers members ++ .endBlock :: rest) = some (members, rest) := by
  induction members generalizing n with
  | nil =>
      obtain ⟨n, rfl⟩ : ∃ m, n = m + 1 := ⟨n - 1, by omega⟩
      rfl
  | cons member members ih =>
      obtain ⟨key, value⟩ := member
      obtain ⟨⟨hkey, hvalue⟩, hmembers⟩ := List.forall_mem_cons.1 h
      dsimp only at hkey hvalue
      simp only [blockMembers, List.length_append, List.length_cons] at hn
      obtain ⟨n, rfl⟩ : ∃ m, n = m + 2 := ⟨n - 2, by omega⟩
      have hreadKey := hkey (n + 1) (.value :: (blockTokens value ++ (blockMembers members ++
        .endBlock :: rest))) (fun t ht => by rcases ht; exact (nomatch ·)) (by omega)
      have hreadValue := hvalue n (blockMembers members ++ .endBlock :: rest)
        (endsItems_blockMembers members rest) (by omega)
      have hreadMembers := ih hmembers (n := n + 1) (by omega)
      simp only [blockMembers, List.append_assoc, List.cons_append]
      rw [readBlockMembers, hreadKey]
      change (readMemberPart n (blockTokens value ++ (blockMembers members ++ _))).bind _ = _
      rw [hreadValue]
      change (readBlockMembers (n + 1) (blockMembers members ++ .endBlock :: rest)).bind _ = _
      rw [hreadMembers]
      rfl

theorem readsBlock_mapping {members : List (Yaml × Yaml)}
    (h : ∀ member ∈ members, ReadsPart member.1 ∧ ReadsPart member.2) :
    ReadsBlock (.mapping members) := by
  intro n rest hn
  simp only [blockTokens, List.length_append, List.length_cons] at hn
  obtain ⟨n, rfl⟩ : ∃ m, n = m + 1 := ⟨n - 1, by omega⟩
  have hread := readBlockMembers_block (n := n) h (by omega) rest
  simp only [blockTokens, List.append_assoc, List.cons_append, List.nil_append]
  rw [readNode, hread]
  rfl

/-! The tokens of tidy values. -/

variable {P : Float → Prop} {v : Data}

/-- A tidy value is read from the tokens of its block wherever one can stand. -/
theorem Tidy.readsPart (h : Tidy P v) (quoted : Bool) (style : Style) :
    ReadsPart (node quoted style v) ∧
    ((∃ members, v = .record members) → ReadsBlock (node quoted style v)) := by
  induction h with
  | integer _ => exact ⟨readsPart_scalar _ _, fun ⟨_, h⟩ => nomatch h⟩
  | real _ => exact ⟨readsPart_scalar _ _, fun ⟨_, h⟩ => nomatch h⟩
  | word _ => exact ⟨readsPart_scalar _ _, fun ⟨_, h⟩ => nomatch h⟩
  | list hne hrecords _ ih =>
      refine ⟨?_, fun ⟨_, h⟩ => nomatch h⟩
      rw [node, itemNodes_eq]
      refine readsPart_list (List.map_eq_nil_iff.not.2 hne) (List.forall_mem_map.2 ?_)
      intro item hitem
      obtain ⟨members, hmembers⟩ := hrecords item hitem
      refine ⟨(ih item hitem).2 ⟨members, hmembers⟩, ?_⟩
      rw [hmembers]
      exact ⟨.startMapping, _, rfl, rfl⟩
  | @record members _ _ _ ih =>
      have hblock : ReadsBlock (.mapping (memberNodes quoted style members)) := by
        refine readsBlock_mapping ?_
        rw [memberNodes_eq]
        exact List.forall_mem_map.2 fun member hmember =>
          ⟨readsPart_scalar _ _, (ih member hmember).1⟩
      exact ⟨hblock.readsPart rfl rfl, fun _ => hblock⟩

/-! Documents. -/

/-- What is read as a node and starts with one of its tokens is a document. -/
theorem ofTokens?_eq {t : Token} {ts : List Token} (ht : startsNode t = true)
    (h : readNode false (4 * (t :: ts).length + 4) (t :: ts) = some (y, [])) :
    ofTokens? (t :: ts) = some y := by
  have hcontent : ofContent? (t :: ts) = some y := by
    rw [ofContent?, h]
    rfl
  cases t with
  | scalar | openList | openMapping | startMapping => exact hcontent
  | _ => cases ht

theorem ofTokens?_flowTokens (y : Yaml) : ofTokens? (flowTokens y) = some y := by
  have hread := readNode_flow y false (4 * (flowTokens y).length + 4) [] (by omega)
  obtain ⟨t, ts, hts, ht⟩ := exists_flowTokens_eq_cons y
  rw [List.append_nil, hts] at hread
  rw [hts]
  exact ofTokens?_eq ht hread

theorem Tidy.ofTokens?_blockTokens {members : List (Data.Key × Data)}
    (h : Tidy P (.record members)) (quoted : Bool) (style : Style) :
    ofTokens? (blockTokens (node quoted style (.record members))) =
      some (node quoted style (.record members)) := by
  have hread := (h.readsPart quoted style).2 ⟨members, rfl⟩
    (4 * (blockTokens (node quoted style (.record members))).length + 4) [] (by omega)
  rw [List.append_nil] at hread
  exact ofTokens?_eq rfl hread

end AtomArray.Yaml
