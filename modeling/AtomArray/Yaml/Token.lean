import AtomArray.Yaml.Scalar

/-! The parts of YAML text: scalars, marks, and the blocks that indentation makes. -/

namespace AtomArray.Yaml

/-- `key` stands before every key, and `value` for the colon behind it. A block of items or members
goes from its start to its end. -/
inductive Token
  | scalar (plain : Bool) (text : String)
  | openList
  | closeList
  | openMapping
  | closeMapping
  | comma
  | dash
  | key
  | value
  | startList
  | startMapping
  | endBlock
  | startDocument
  | endDocument
  deriving DecidableEq, Repr

/-- Where a token stands that is a key if a colon follows it, and how many tokens come before it. It
has to be a key where only a further key of its block can stand. -/
structure KeyStart where
  index : Nat
  place : Place
  required : Bool

/-- A key stands on the line of its colon, at most 1024 bytes before it. -/
def KeyStart.reaches (k : KeyStart) (p : Place) : Bool :=
  k.place.line = p.line && p.offset ≤ k.place.offset + 1024

/-- A text that is read token by token. `fresh` tells whether a key or a dash may stand here: where
only dashes and marks of keys and values come before it on its line, or in brackets after an opening
one or a comma. There is a place for a key start outside of brackets and one in every open bracket;
`key` is that of the innermost one. The indents are the columns of the open blocks. -/
structure Scan where
  rest : List Char
  place : Place
  fresh : Bool
  key : Option KeyStart
  outer : List (Option KeyStart)
  indents : List Nat
  tokens : Array Token

namespace Scan

def start (cs : List Char) : Scan := ⟨cs, .lineStart 0, true, none, [], [], #[]⟩

def inBrackets (s : Scan) : Bool := !s.outer.isEmpty

/-- The column that the lines of a plain scalar may not start left of. -/
def floor (s : Scan) : Nat := (s.indents.head?.map (· + 1)).getD 0

/-- Takes some characters of a line as a token, after which keys are allowed or not. -/
def take (n : Nat) (t : Token) (fresh : Bool) (s : Scan) : Scan :=
  { s with rest := s.rest.drop n, place := s.place.right n, tokens := s.tokens.push t, fresh }

/-- Skips blanks, line breaks and comments, and a byte order mark at the start of a line. A tab
where a key may stand is not skipped. -/
def skipSpace (brackets comment fresh : Bool) (place : Place) :
    List Char → Bool × Place × List Char
  | [] => (fresh, place, [])
  | c :: rest =>
    if c = '\n' then skipSpace brackets false (fresh || !brackets) (place.after c) rest
    else if comment || c = '#' then skipSpace brackets true fresh (place.after c) rest
    else if c = ' ' || c = '\t' && (brackets || !fresh) || c = '\ufeff' && place.column = 0 then
      skipSpace brackets false fresh (place.after c) rest
    else (fresh, place, c :: rest)

def skip (s : Scan) : Scan :=
  let (fresh, place, rest) := skipSpace s.inBrackets false s.fresh s.place s.rest
  { s with fresh, place, rest }

/-- Forgets the key starts that no colon can reach from here. -/
def forgetLost? (s : Scan) : Option Scan :=
  let lost (k : KeyStart) := !k.reaches s.place
  if (s.key :: s.outer).any fun k => k.any fun k => k.required && lost k then none
  else
    let kept (k : Option KeyStart) := k.filter fun k => !lost k
    some { s with key := kept s.key, outer := s.outer.map kept }

def forgetKey? (s : Scan) : Option Scan :=
  if s.key.any (·.required) then none else some { s with key := none }

def noteKey? (s : Scan) : Option Scan :=
  if s.fresh then do
    let s ← s.forgetKey?
    let required := !s.inBrackets && s.indents.head? = some s.place.column
    return { s with key := some ⟨s.tokens.size, s.place, required⟩ }
  else some s

/-- Starts a block before the token at an index if its column is further right than that of the
block around it. Brackets hold no blocks. -/
def indent (column index : Nat) (t : Token) (s : Scan) : Scan :=
  if s.inBrackets || s.indents.head?.any (column ≤ ·) then s
  else { s with indents := column :: s.indents, tokens := s.tokens.insertIdxIfInBounds index t }

/-- Ends the blocks whose columns are left behind. -/
def unindent (leaves : Nat → Bool) (s : Scan) : Scan :=
  if s.inBrackets then s
  else
    let ended := s.indents.takeWhile leaves
    { s with
      indents := s.indents.dropWhile leaves
      tokens := s.tokens ++ Array.replicate ended.length .endBlock }

def open? (t : Token) (s : Scan) : Option Scan := do
  let s ← s.noteKey?
  return { s.take 1 t true with key := none, outer := s.key :: s.outer }

def close? (t : Token) (s : Scan) : Option Scan := do
  let s := (← s.forgetKey?).take 1 t false
  match s.outer with
  | key :: outer => return { s with key, outer }
  | [] => return s

def comma? (s : Scan) : Option Scan := do return (← s.forgetKey?).take 1 .comma true

def dash? (s : Scan) : Option Scan :=
  if s.inBrackets || !s.fresh then none
  else do
    let s ← (s.indent s.place.column s.tokens.size .startList).forgetKey?
    return s.take 1 .dash true

/-- A question mark starts a key of any length. -/
def question? (s : Scan) : Option Scan :=
  if !s.inBrackets && !s.fresh then none
  else do
    let s ← (s.indent s.place.column s.tokens.size .startMapping).forgetKey?
    return s.take 1 .key !s.inBrackets

/-- A colon makes the token at the key start a key. Without one it belongs to a question mark. -/
def colon? (s : Scan) : Option Scan :=
  match s.key with
  | some k =>
    let s := { s with key := none, tokens := s.tokens.insertIdxIfInBounds k.index .key }
    some ((s.indent k.place.column k.index .startMapping).take 1 .value false)
  | none =>
    if !s.inBrackets && !s.fresh then none
    else
      let s := s.indent s.place.column s.tokens.size .startMapping
      some (s.take 1 .value !s.inBrackets)

def passed (plain : Bool) (r : Reading) (s : Scan) : Scan :=
  { s with
    rest := r.rest
    place := r.place
    fresh := r.broken
    tokens := s.tokens.push (.scalar plain (String.ofList r.text)) }

/-- The mark of a document ends every block. -/
def mark? (t : Token) (s : Scan) : Option Scan := do
  return (← (s.unindent fun _ => true).forgetKey?).take 3 t false

def next? (s : Scan) : Option Scan :=
  if s.place.column = 0 && atMark s.rest then
    s.mark? (if s.rest.head? = some '-' then .startDocument else .endDocument)
  else match s.rest with
    | [] => none
    | '[' :: _ => s.open? .openList
    | ']' :: _ => s.close? .closeList
    | '\x7b' :: _ => s.open? .openMapping
    | '\x7d' :: _ => s.close? .closeMapping
    | ',' :: _ => s.comma?
    | '\x27' :: rest => do
      let s ← s.noteKey?
      return s.passed false (← readSingle .none (s.place.right 1) rest)
    | '"' :: rest => do
      let s ← s.noteKey?
      return s.passed false (← readDouble 0 .none (s.place.right 1) rest)
    | c :: rest =>
      if c = '-' && atSpace rest then s.dash?
      else if c = '?' && (s.inBrackets || atSpace rest) then s.question?
      else if c = ':' && (s.inBrackets || atSpace rest) then s.colon?
      else if startsPlain s.inBrackets s.rest then do
        let s ← s.noteKey?
        return s.passed true (← readPlain s.inBrackets s.floor .none s.place s.rest)
      else none

/-- Takes all tokens up to the end of the text, where every block ends. -/
def run : Nat → Scan → Option (List Token)
  | 0, _ => none
  | n + 1, s => do
    let s ← s.skip.forgetLost?
    if s.rest.isEmpty then return (← (s.unindent fun _ => true).forgetKey?).tokens.toList
    else run n (← (s.unindent (s.place.column < ·)).next?)

end Scan

/-- The tokens of a text, of which every one takes a character. -/
def tokens? (cs : List Char) : Option (List Token) := (Scan.start cs).run (cs.length + 1)

end AtomArray.Yaml
