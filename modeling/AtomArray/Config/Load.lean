import AtomArray.Config.Yaml
import AtomArray.Folder

/-! Configurations from files, with the radius overridden by the environment. -/

namespace AtomArray.Config

/-- The configuration in a file: JSON if the extension says so, and YAML otherwise. -/
def ofFile? (folder : Folder) (path : String) : Except ConfigError Config :=
  match folder.read? path with
  | none => .error .unreadable
  | some text =>
    if Folder.extension? path = some "json" then ofJsonText? text else ofYamlText? text

/-- The configuration in a file, or that of a layout where no file is given. It is checked once more
with the radius that the environment gives it. -/
def load? (folder : Folder) (path : Option String) (layout : Layout) (radius : Option String) :
    Except ConfigError Config := do
  let c ← match path with
    | some path => ofFile? folder path
    | none => .ok (ofLayout layout)
  (c.override radius).checked

end AtomArray.Config
