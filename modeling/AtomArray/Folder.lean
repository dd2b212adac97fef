/-! Text files by name, and the names that paths give them. -/

namespace AtomArray

/-- Later files hide earlier ones of the same name. -/
structure Folder where
  files : List (String × String)

namespace Folder

def parts : List Char → List (List Char)
  | [] => [[]]
  | c :: rest =>
    if c = '/' then [] :: parts rest
    else match parts rest with
      | part :: more => (c :: part) :: more
      | [] => [[c]]

/-- A part of a path that leads nowhere else. -/
def isIdle (part : List Char) : Bool := part = [] || part = ['.']

/-- The name of the file at a path, without needless parts. A path that ends in one names no file,
and is left alone. -/
def nameOf (path : String) : String :=
  let ps := parts path.toList
  if ps.getLast?.all isIdle then path
  else
    let name := (['/'] : List Char).intercalate (ps.filter (!isIdle ·))
    String.ofList (if path.toList.head? = some '/' then '/' :: name else name)

def read? (f : Folder) (path : String) : Option String :=
  let name := nameOf path
  (f.files.reverse.find? (·.1 == name)).map (·.2)

def write (f : Folder) (path text : String) : Folder := ⟨f.files ++ [(nameOf path, text)]⟩

/-- What stands behind the last dot of the file name, unless the name starts with that dot. -/
def extension? (path : String) : Option String :=
  let name := path.toList.reverse.takeWhile (· != '/')
  match name.span (· != '.') with
  | (extension, '.' :: _ :: _) => some (String.ofList extension.reverse)
  | _ => none

/-- The files that are new or hold another text than before. -/
def changes (before after : Folder) : List (String × String) :=
  let names := (after.files.map (·.1)).eraseDups
  names.filterMap fun name =>
    match after.read? name with
    | some text => if before.read? name = some text then none else some (name, text)
    | none => none

end Folder
end AtomArray
