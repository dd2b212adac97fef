import AtomArray.Site

/-! Qubit identities: a site, a position on a line, or a name. -/

namespace AtomArray

/-- Only sites can belong to a device; the other two are there to be refused by name. -/
inductive Qubit
  | site (s : Site)
  | line (n : Int64)
  | named (name : String)

namespace Qubit

/-- What decides equality, order and hashing. -/
inductive Identity
  | place (p : Site.Place)
  | line (n : Int64)
  | named (name : String)
  deriving DecidableEq, Hashable

/-- Sites come before line qubits, and these before named ones. -/
instance : Ord Identity where
  compare
    | .place p, .place q => compare p q
    | .place _, _ => .lt
    | .line _, .place _ => .gt
    | .line m, .line n => compare m n
    | .line _, .named _ => .lt
    | .named a, .named b => compare a b
    | .named _, _ => .gt

def identity : Qubit → Identity
  | .site s => .place s.place
  | .line n => .line n
  | .named name => .named name

instance : BEq Qubit := ⟨fun a b => a.identity == b.identity⟩

instance : Ord Qubit := ⟨fun a b => compare a.identity b.identity⟩

instance : Hashable Qubit := ⟨fun q => hash q.identity⟩

def Apart (a b : Qubit) : Prop := a.identity ≠ b.identity

theorem Apart.symm {a b : Qubit} (h : Apart a b) : Apart b a := Ne.symm h

def Distinct (qs : List Qubit) : Prop := (qs.map identity).Nodup

instance (qs : List Qubit) : Decidable (Distinct qs) :=
  inferInstanceAs (Decidable (qs.map identity).Nodup)

theorem distinct_one (a : Qubit) : Distinct [a] := by simp [Distinct]

theorem distinct_two {a b : Qubit} : Distinct [a, b] ↔ Apart a b := by simp [Distinct, Apart]

theorem distinct_three {a b c : Qubit} :
    Distinct [a, b, c] ↔ Apart a b ∧ Apart a c ∧ Apart b c := by
  simp [Distinct, Apart, and_assoc]

/-- The first qubit that is the same as an earlier one. -/
def firstRepeat? (qs : List Qubit) : Option Qubit := go [] qs
where
  go (seen : List Identity) : List Qubit → Option Qubit
    | [] => none
    | q :: rest =>
      let i := q.identity
      if i ∈ seen then some q else go (i :: seen) rest

def site? : Qubit → Option Site
  | .site s => some s
  | _ => none

def dimension : Qubit → Nat
  | .site s => s.dimension
  | _ => 2

def sort : Qubit → String
  | .site _ => "ThreeDGridQubit"
  | .line _ => "LineQubit"
  | .named _ => "NamedQubit"

def render : Qubit → String
  | .site s => s.render
  | .line n => "q(" ++ toString n ++ ")"
  | .named name => name

def renderList (qs : List Qubit) : String := ", ".intercalate (qs.map render)

def lineRange (n : Int64) : List Qubit :=
  (List.range n.toInt.toNat).map fun i => .line (Int64.ofNat i)

theorem firstRepeat?.go_eq_none {seen : List Identity} {qs : List Qubit} :
    firstRepeat?.go seen qs = none ↔ Distinct qs ∧ ∀ q ∈ qs, q.identity ∉ seen := by
  induction qs generalizing seen with
  | nil => simp [go, Distinct]
  | cons q rest ih =>
    by_cases h : q.identity ∈ seen
    · simp [go, h]
    · simp only [go, h, if_false, ih]
      simp only [Distinct, List.map_cons, List.nodup_cons, List.mem_map, List.mem_cons, not_or]
      grind

theorem firstRepeat?_eq_none {qs : List Qubit} : firstRepeat? qs = none ↔ Distinct qs := by
  simp [firstRepeat?, firstRepeat?.go_eq_none]

end Qubit
end AtomArray
