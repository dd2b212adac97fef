import AtomArray.CommandLine.Request
import AtomArray.Proofs.Config.Loading
import AtomArray.Proofs.Config.Text

/-! Configurations in both formats of device files: what is written of one that passes its check is
read back as it, down to the last field. -/

namespace AtomArray

open CommandLine (Format)
open Yaml (HasText)

/-- Doubles that either reader gets back from the text of its own format. -/
def Config.Retained (x : Float) : Prop := Json.Keeps x ∧ Yaml.Keeps .yaml x

instance (x : Float) : Decidable (Config.Retained x) :=
  inferInstanceAs (Decidable (Json.Keeps x ∧ Yaml.Keeps .yaml x))

namespace Layout

variable {layout : Layout} {n : ℕ}

/-- A packing is counted only at finite offsets. -/
theorem isFinite_of_siteCount {size : UInt32} {top left : Float}
    (h : (triangular size top left).siteCount = .ok n) :
    top.isFinite = true ∧ left.isFinite = true := by
  unfold siteCount at h
  dsimp only at h
  split_ifs at h with hoffsets
  simpa using hoffsets

/-- Whatever is counted has texts for all its numbers, unless it lists sites that have none. -/
theorem hasText_reals (hcount : layout.siteCount = .ok n)
    (hlisted : ∀ sites, layout = .explicit sites → ∀ s ∈ sites, AllFinite s.axes) :
    ∀ x ∈ layout.reals, HasText x := by
  cases layout with
  | triangular size top left =>
      obtain ⟨htop, hleft⟩ := isFinite_of_siteCount hcount
      exact List.forall_mem_cons.2 ⟨htop, List.forall_mem_singleton.2 hleft⟩
  | explicit sites =>
      intro x hx
      obtain ⟨s, hs, hx⟩ := List.mem_flatMap.1 hx
      exact hlisted sites rfl s hs x hx
  | _ => exact fun x hx => nomatch hx

end Layout

namespace Config

variable {c : Config}

theorem hasText_reals (hcheck : c.check = .ok ())
    (hlisted : ∀ sites, c.layout = .explicit sites → ∀ s ∈ sites, AllFinite s.axes) :
    ∀ x ∈ c.reals, HasText x := by
  obtain ⟨hradius, n, hcount, -⟩ := check_eq_ok hcheck
  have hfinite : HasText c.radius := (Bool.and_eq_true_iff.1 hradius).1
  exact List.forall_mem_cons.2 ⟨hfinite, Layout.hasText_reals hcount hlisted⟩

/-- A configuration that passes its check is read back from its JSON text and from its YAML text,
whatever its layout, as long as the sites that it may list have finite coordinates and no reader
loses a digit of its numbers. Nothing that is written is left to a default, and the check that
follows reading accepts it again. -/
theorem read_back_from_both_formats (hcheck : c.check = .ok ())
    (hlisted : ∀ sites, c.layout = .explicit sites → ∀ s ∈ sites, AllFinite s.axes)
    (hkeeps : ∀ x ∈ c.reals, x.isFinite = true → Retained x) :
    ofJsonText? (Format.json.render c) = .ok c ∧ ofYamlText? (Format.yaml.render c) = .ok c := by
  have hchecked : c.checked = .ok c := checked_eq_ok_iff.2 ⟨rfl, hcheck⟩
  have hsites : c.layout.sites ≠ [] := sites_ne_nil hcheck
  have htext : ∀ x ∈ c.reals, HasText x := hasText_reals hcheck hlisted
  constructor
  · refine Eq.trans (ofJsonText?_of_writes .pretty hsites fun x hx => ?_) hchecked
    exact ⟨htext x hx, (hkeeps x hx (htext x hx)).1⟩
  · refine Eq.trans (ofYamlText?_yamlText (fun x hx => ?_) hsites) hchecked
    exact ⟨htext x hx, (hkeeps x hx (htext x hx)).2⟩

/-- Three sites of which one has a zero below zero, with the longest duration there is. -/
def listedSites : Config :=
  ⟨0.1, .explicit [⟨-0.0, 1e-7, 2.5⟩, ⟨1e300, -3, 0⟩, ⟨0, 1 / 3, 0⟩],
    ⟨1, 18446744073709551615⟩⟩

theorem check_listedSites : listedSites.check = .ok () :=
  check_eq_ok_iff.2 ⟨by decide +kernel, ⟨3, rfl, by decide⟩, rfl⟩

theorem read_back_from_both_formats_listedSites :
    listedSites.check = .ok () ∧ listedSites.radius ∈ listedSites.reals ∧
    (∀ x ∈ listedSites.reals, x.isFinite = true ∧ Retained x) ∧
    ofJsonText? (Format.json.render listedSites) = .ok listedSites ∧
    ofYamlText? (Format.yaml.render listedSites) = .ok listedSites := by
  have hreals : ∀ x ∈ listedSites.reals, x.isFinite = true ∧ Retained x := by decide +kernel
  have hlisted : ∀ sites, listedSites.layout = .explicit sites →
      ∀ s ∈ sites, AllFinite s.axes := by
    rintro sites ⟨⟩
    decide +kernel
  exact ⟨check_listedSites, List.mem_cons_self, hreals,
    read_back_from_both_formats check_listedSites hlisted fun x hx _ => (hreals x hx).2⟩

end Config
end AtomArray
