import AtomArray.Json.Reader

/-! The texts of YAML scalars: quoted ones, and plain ones with their line breaks folded. -/

namespace AtomArray.Yaml

def isBlank (c : Char) : Bool := c = ' ' || c = '\t'

def isSpace (c : Char) : Bool := isBlank c || c = '\n'

def atSpace (cs : List Char) : Bool := cs.head?.all isSpace

/-- Three dashes or dots with a blank behind them. At the start of a line they separate documents,
also inside of a scalar. -/
def atMark : List Char → Bool
  | '-' :: '-' :: '-' :: rest => atSpace rest
  | '.' :: '.' :: '.' :: rest => atSpace rest
  | _ => false

/-- A place in a text. The column counts the characters before it on its line, and the offset their
bytes as UTF-8. -/
structure Place where
  line : Nat
  column : Nat
  offset : Nat
  deriving DecidableEq, Repr

def Place.lineStart (line : Nat) : Place := ⟨line, 0, 0⟩

def Place.after (p : Place) (c : Char) : Place :=
  if c = '\n' then .lineStart (p.line + 1) else ⟨p.line, p.column + 1, p.offset + c.utf8Size⟩

def Place.right (p : Place) (n : Nat) : Place := ⟨p.line, p.column + n, p.offset + n⟩

/-- Blanks between two words of a scalar: some on one line, newest first, or a line break, which may
be escaped, and further ones after it. -/
inductive Gap
  | blanks (cs : List Char)
  | breaks (escaped : Bool) (further : Nat)

namespace Gap

def none : Gap := .blanks []

def isNone : Gap → Bool
  | .blanks [] => true
  | _ => false

def hasBreak : Gap → Bool
  | .blanks _ => false
  | .breaks _ _ => true

/-- The gap with one more blank or line break. Blanks around line breaks are lost. -/
def push (c : Char) : Gap → Gap
  | .blanks cs => if c = '\n' then .breaks false 0 else .blanks (c :: cs)
  | .breaks escaped n => .breaks escaped (if c = '\n' then n + 1 else n)

/-- What a gap amounts to in a text: a line break is a blank, of several line breaks one is lost,
and an escaped one vanishes. -/
def text : Gap → List Char
  | .blanks cs => cs.reverse
  | .breaks false 0 => [' ']
  | .breaks _ n => List.replicate n '\n'

end Gap

/-- A text that was read, the place behind it and what follows there, and whether a line break stood
before that place. -/
structure Reading where
  text : List Char
  broken : Bool
  place : Place
  rest : List Char

def Reading.onto (front : List Char) (r : Reading) : Reading := { r with text := front ++ r.text }

/-- Reads a text behind its single quote; a quote in it is written twice. -/
def readSingle (gap : Gap) (place : Place) : List Char → Option Reading
  | [] => none
  | '\x27' :: '\x27' :: rest =>
    (readSingle .none (place.right 2) rest).map (.onto (gap.text ++ ['\x27']))
  | '\x27' :: rest => some ⟨gap.text, false, place.right 1, rest⟩
  | c :: rest =>
    if isSpace c then
      if c = '\n' && atMark rest then none else readSingle (gap.push c) (place.after c) rest
    else (readSingle .none (place.after c) rest).map (.onto (gap.text ++ [c]))

def escape? : Char → Option Char
  | '0' => some '\x00'
  | 'a' => some '\x07'
  | 'b' => some '\x08'
  | 't' => some '\t'
  | '\t' => some '\t'
  | 'n' => some '\n'
  | 'v' => some '\x0b'
  | 'f' => some '\x0c'
  | 'r' => some '\r'
  | 'e' => some '\x1b'
  | ' ' => some ' '
  | '"' => some '"'
  | '/' => some '/'
  | '\\' => some '\\'
  | 'N' => some '\u0085'
  | '_' => some '\u00a0'
  | 'L' => some '\u2028'
  | 'P' => some '\u2029'
  | _ => none

def hexWidth : Char → Nat
  | 'x' => 2
  | 'u' => 4
  | 'U' => 8
  | _ => 0

def escaped? (c : Char) (rest : List Char) : Option Char :=
  match hexWidth c with
  | 0 => escape? c
  | width => do
    let digits ← (rest.take width).mapM Json.hexDigit?
    let code := digits.foldl (fun n d => n * 16 + d) 0
    if digits.length = width ∧ code.isValidChar then some (Char.ofNat code) else none

/-- Reads a text behind its double quote. `left` is the number of hexadecimal digits that are still
to be passed of the escape before. -/
def readDouble (left : Nat) (gap : Gap) (place : Place) : List Char → Option Reading
  | [] => none
  | c :: rest =>
    match left with
    | n + 1 => readDouble n gap (place.after c) rest
    | 0 =>
      match c, rest with
      | '"', rest => some ⟨gap.text, false, place.right 1, rest⟩
      | '\\', '\n' :: rest =>
        if atMark rest then none
        else (readDouble 0 (.breaks true 0) (.lineStart (place.line + 1)) rest).map (.onto gap.text)
      | '\\', c :: rest =>
        match escaped? c rest with
        | some escaped =>
          (readDouble (hexWidth c) .none (place.right 2) rest).map (.onto (gap.text ++ [escaped]))
        | none => none
      | '\\', [] => none
      | c, rest =>
        if isSpace c then
          if c = '\n' && atMark rest then none else readDouble 0 (gap.push c) (place.after c) rest
        else (readDouble 0 .none (place.after c) rest).map (.onto (gap.text ++ [c]))

/-- The characters that separate the parts of a collection in brackets. -/
def isBracketMark (c : Char) : Bool := [',', '[', ']', '\x7b', '\x7d'].contains c

def isIndicator (c : Char) : Bool :=
  isBracketMark c ||
    ['-', '?', ':', '#', '&', '*', '!', '|', '>', '\x27', '"', '%', '@', '\x60'].contains c

/-- Whether a plain scalar can start here; a dash, and outside of brackets a question mark or colon,
can start one unless a blank follows. -/
def startsPlain (brackets : Bool) : List Char → Bool
  | [] => false
  | c :: rest =>
    if isIndicator c then (c = '-' || !brackets && (c = '?' || c = ':')) && !atSpace rest
    else !isSpace c

/-- Whether a plain scalar ends before a character that is no blank: at a colon with a blank behind
it, in brackets at their marks, at a mark between documents, and after a gap at a comment or,
outside of brackets, left of the floor. -/
def endsPlain (brackets : Bool) (floor : Nat) (gap : Gap) (place : Place) (c : Char)
    (rest : List Char) : Bool :=
  c = ':' && atSpace rest || brackets && isBracketMark c ||
    place.column = 0 && atMark (c :: rest) ||
    !gap.isNone && (c = '#' || !brackets && place.column < floor)

/-- Reads a plain scalar, which may run on over several lines, and the blanks after it. A tab does
not count as indentation, and in brackets a colon does not stand before a mark. -/
def readPlain (brackets : Bool) (floor : Nat) (gap : Gap) (place : Place) :
    List Char → Option Reading
  | [] => some ⟨[], gap.hasBreak, place, []⟩
  | c :: rest =>
    if isSpace c then
      if c = '\t' && gap.hasBreak && place.column < floor then none
      else readPlain brackets floor (gap.push c) (place.after c) rest
    else if endsPlain brackets floor gap place c rest then
      some ⟨[], gap.hasBreak, place, c :: rest⟩
    else if brackets && c = ':' && rest.head?.any (fun d => d = '?' || isBracketMark d) then none
    else (readPlain brackets floor .none (place.after c) rest).map (.onto (gap.text ++ [c]))

end AtomArray.Yaml
