import AtomArray.Decimal.Numeral

/-! Options and operands on a command line. -/

namespace AtomArray.CommandLine

/-- A flag has no value and a counter is a flag that may be repeated. A value is the rest of its
word or else the next word, which only a free value lets start with a dash. -/
inductive Taking
  | flag
  | counter
  | value
  | freeValue
  deriving DecidableEq

structure Choice where
  long : String
  short : Option Char
  taking : Taking

inductive Word
  | option (long : String) (value : String)
  | operand (text : String)
  deriving DecidableEq

def Taking.hasValue : Taking → Bool
  | .flag | .counter => false
  | .value | .freeValue => true

/-- Whether a word can be the value of the option before it. -/
def Taking.accepts (taking : Taking) (word : String) : Bool :=
  match taking with
  | .freeValue => true
  | _ =>
    match word.toList with
    | '-' :: _ :: _ => false
    | _ => true

/-- The options that a word gives, the last of which may still want a value. -/
abbrev WordRest := List Word × Option Choice

/-- An option by its long name, and the value behind an equals sign if there is one. -/
def readLong (choices : List Choice) (body : List Char) : Option WordRest :=
  let (name, behind) := body.span (· != '=')
  match choices.find? fun c => c.long == String.ofList name with
  | none => none
  | some choice =>
    match behind, choice.taking.hasValue with
    | [], false => some ([.option choice.long ""], none)
    | [], true => some ([], some choice)
    | _ :: value, true => some ([.option choice.long (String.ofList value)], none)
    | _ :: _, false => none

/-- Options by their short names in one word. The first that has a value takes the rest of the word,
without an equals sign. -/
def readShort (choices : List Choice) : List Char → Option WordRest
  | [] => some ([], none)
  | c :: rest =>
    match choices.find? fun choice => choice.short == some c with
    | none => none
    | some choice =>
      if choice.taking.hasValue then
        match rest with
        | [] => some ([], some choice)
        | '=' :: value => some ([.option choice.long (String.ofList value)], none)
        | value => some ([.option choice.long (String.ofList value)], none)
      else (readShort choices rest).map fun (words, last) => (.option choice.long "" :: words, last)

def readWord (choices : List Choice) (word : String) : Option WordRest :=
  match word.toList with
  | '-' :: '-' :: body => readLong choices body
  | '-' :: c :: rest => readShort choices (c :: rest)
  | _ => some ([.operand word], none)

/-- Reads the words in order. Two dashes make operands of all that follow them. -/
def readWords (choices : List Choice) : List String → Option (List Word)
  | [] => some []
  | word :: rest =>
    if word = "--" then some (rest.map .operand)
    else match readWord choices word with
      | none => none
      | some (words, none) => (readWords choices rest).map (words ++ ·)
      | some (words, some choice) =>
        match rest with
        | [] => none
        | value :: rest =>
          if choice.taking.accepts value then
            (readWords choices rest).map ((words ++ [.option choice.long value]) ++ ·)
          else none

def valuesOf (words : List Word) (long : String) : List String :=
  words.filterMap fun
    | .option name value => if name == long then some value else none
    | .operand _ => none

/-- Whether no option is repeated but counters. -/
def isSingle (choices : List Choice) (words : List Word) : Bool :=
  choices.all fun c => c.taking = .counter || (valuesOf words c.long).length ≤ 1

def arguments? (choices : List Choice) (args : List String) : Option (List Word) :=
  (readWords choices args).filter (isSingle choices)

def operands (words : List Word) : List String :=
  words.filterMap fun
    | .operand text => some text
    | .option _ _ => none

def hasFlag (words : List Word) (long : String) : Bool := !(valuesOf words long).isEmpty

/-- The value of an option that may be left out; none if it cannot be read. -/
def optionOr {α : Type} (words : List Word) (long : String) (default : α)
    (read? : String → Option α) : Option α :=
  match (valuesOf words long).head? with
  | none => some default
  | some text => read? text

def uint32? (text : String) : Option UInt32 :=
  (Decimal.readInt? text).bind fun n =>
    if 0 ≤ n ∧ n < UInt32.size then some (UInt32.ofNat n.toNat) else none

def int64? (text : String) : Option Int64 :=
  (Decimal.readInt? text).bind fun n =>
    if Int64.minValue.toInt ≤ n ∧ n ≤ Int64.maxValue.toInt then some (Int64.ofInt n) else none

end AtomArray.CommandLine
