import AtomArray.Yaml.Nesting

/-! YAML text: characters and line breaks, and the one document that it holds. -/

namespace AtomArray.Yaml

def isPrintable (c : Char) : Bool :=
  let n := c.toNat
  n = 0x09 || n = 0x0a || n = 0x0d || 0x20 ≤ n && n ≤ 0x7e || n = 0x85 ||
    0xa0 ≤ n && n ≤ 0xfffd || 0x10000 ≤ n

def plainBreaks : List Char → List Char
  | [] => []
  | '\r' :: '\n' :: rest => '\n' :: plainBreaks rest
  | c :: rest =>
    let isBreak := ['\r', '\u0085', '\u2028', '\u2029'].contains c
    (if isBreak then '\n' else c) :: plainBreaks rest

def read? (text : String) : Option Yaml :=
  if text.toList.all isPrintable then (tokens? (plainBreaks text.toList)).bind ofTokens? else none

end AtomArray.Yaml
