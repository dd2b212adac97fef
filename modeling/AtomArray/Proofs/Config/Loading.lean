import AtomArray.CommandLine.Loading
import AtomArray.Proofs.Config.Building
import AtomArray.Proofs.Traversal

/-! Configurations with the radius that the environment gives: where they come from, what may become
of the radius, and when one is loaded at all. -/

namespace AtomArray
namespace Config

variable {folder : Folder} {layout : Layout} {path : Option String} {value : Option String}
  {file text : String} {b c : Config} {fault : ConfigFault} {radius : Float}

theorem checked_eq_ok_iff : b.checked = .ok c ↔ b = c ∧ b.check = .ok () := by
  unfold checked
  cases hcheck : b.check with
  | error fault => exact iff_of_false (nomatch ·) fun h => nomatch h.2
  | ok => rw [Except.ok.injEq, and_iff_left rfl]

end Config

namespace CommandLine

variable {folder : Folder} {layout : Layout} {value : Option String} {file text : String}
  {b c : Config}

end CommandLine

namespace Config

end Config
end AtomArray
