import AtomArray.Yaml
import AtomArray.Yaml.Token

/-! YAML values from their tokens. -/

namespace AtomArray.Yaml

abbrev NodeRest := Yaml × List Token

def atOneOf (ends : List Token) (ts : List Token) : Bool := ts.head?.any ends.contains

mutual

/-- Reads a value; brackets hold no blocks. Values at different places share their fuel, which four
steps a token do not exceed. -/
def readNode (brackets : Bool) : Nat → List Token → Option NodeRest
  | 0, _ => none
  | n + 1, ts =>
    match brackets, ts with
    | _, .scalar plain text :: rest => some (.scalar plain text, rest)
    | _, .openList :: rest => (readItems n rest).map fun (items, rest) => (.list items, rest)
    | _, .openMapping :: rest =>
      (readMembers n rest).map fun (members, rest) => (.mapping members, rest)
    | false, .startList :: rest =>
      (readBlockItems n rest).map fun (items, rest) => (.list items, rest)
    | false, .startMapping :: rest =>
      (readBlockMembers n rest).map fun (members, rest) => (.mapping members, rest)
    | _, _ => none

/-- Reads a value, or nothing where one of the given tokens is next. -/
def readOptional (brackets : Bool) (ends : List Token) : Nat → List Token → Option NodeRest
  | 0, _ => none
  | n + 1, ts => if atOneOf ends ts then some (absent, ts) else readNode brackets n ts

/-- Reads items up to the closing bracket. An item with a key is a mapping of its own. Where a
question mark has no key, the token behind it is lost. -/
def readItems : Nat → List Token → Option (List Yaml × List Token)
  | 0, _ => none
  | n + 1, ts =>
    match ts with
    | .closeList :: rest => some ([], rest)
    | ts => do
      let (item, rest) ← match ts with
        | .key :: rest =>
          let (key, rest) ←
            if atOneOf [.value, .comma, .closeList] rest then pure (absent, rest.drop 1)
            else readNode true n rest
          let (value, rest) ← readValue true [.comma, .closeList] n rest
          pure (.mapping [(key, value)], rest)
        | ts => readNode true n ts
      match rest with
      | .comma :: rest =>
        let (items, rest) ← readItems n rest
        return (item :: items, rest)
      | .closeList :: rest => return ([item], rest)
      | _ => none

/-- Reads members up to the closing brace. A value alone is a key without a value. -/
def readMembers : Nat → List Token → Option (List (Yaml × Yaml) × List Token)
  | 0, _ => none
  | n + 1, ts =>
    match ts with
    | .closeMapping :: rest => some ([], rest)
    | ts => do
      let (member, rest) ← match ts with
        | .key :: rest =>
          let (key, rest) ← readOptional true [.value, .comma, .closeMapping] n rest
          let (value, rest) ← readValue true [.comma, .closeMapping] n rest
          pure ((key, value), rest)
        | ts =>
          let (key, rest) ← readNode true n ts
          pure ((key, absent), rest)
      match rest with
      | .comma :: rest =>
        let (members, rest) ← readMembers n rest
        return (member :: members, rest)
      | .closeMapping :: rest => return ([member], rest)
      | _ => none

def readValue (brackets : Bool) (ends : List Token) : Nat → List Token → Option NodeRest
  | 0, _ => none
  | n + 1, ts =>
    match ts with
    | .value :: rest =>
      if brackets then readOptional true ends n rest else readMemberPart n rest
    | ts => some (absent, ts)

def readBlockItems : Nat → List Token → Option (List Yaml × List Token)
  | 0, _ => none
  | n + 1, ts =>
    match ts with
    | .dash :: rest => do
      let (item, rest) ← readOptional false [.dash, .endBlock] n rest
      let (items, rest) ← readBlockItems n rest
      return (item :: items, rest)
    | .endBlock :: rest => some ([], rest)
    | _ => none

/-- Reads the items of a list that stands in the column of its key, and so is no block. -/
def readLevelItems : Nat → List Token → Option (List Yaml × List Token)
  | 0, _ => none
  | n + 1, ts =>
    match ts with
    | .dash :: rest => do
      let (item, rest) ← readOptional false [.dash, .key, .value, .endBlock] n rest
      let (items, rest) ← readLevelItems n rest
      return (item :: items, rest)
    | ts => some ([], ts)

/-- Reads a key or a value of a block, or nothing where there is none. -/
def readMemberPart : Nat → List Token → Option NodeRest
  | 0, _ => none
  | n + 1, ts =>
    if atOneOf [.dash] ts then
      (readLevelItems n ts).map fun (items, rest) => (.list items, rest)
    else readOptional false [.key, .value, .endBlock] n ts

def readBlockMembers : Nat → List Token → Option (List (Yaml × Yaml) × List Token)
  | 0, _ => none
  | n + 1, ts =>
    match ts with
    | .key :: rest => do
      let (key, rest) ← readMemberPart n rest
      let (value, rest) ← readValue false [] n rest
      let (members, rest) ← readBlockMembers n rest
      return ((key, value) :: members, rest)
    | .endBlock :: rest => some ([], rest)
    | _ => none

end

/-- The value of a document. Marks of its end may follow, but no other document. -/
def ofContent? (ts : List Token) : Option Yaml :=
  match readNode false (4 * ts.length + 4) ts with
  | some (node, rest) => if rest.all (· = .endDocument) then some node else none
  | none => none

/-- The value of a text that holds one document. After the mark of its start it may be left out. -/
def ofTokens? : List Token → Option Yaml
  | .startDocument :: rest => if rest.all (· = .endDocument) then some absent else ofContent? rest
  | ts => ofContent? ts

end AtomArray.Yaml
