/-
What the front end accepts the back ends do not stumble over
(`frontend_failsAsAnnounced`). An accepted program is well-formed
(`frontend_wellFormed`), and each back end fails on a well-formed program only
for a reason (`generate_fails`, `lower_fails`); here the reasons are put in the
words in which they are announced.

# Names

A name that finds no storage is that of a function, which the front end lets
stand where a variable may; nothing else that it resolves is lost.

# Breaches

What is called not reachable is reached only through storage of type void or a
number that cannot be read, and the message says which
(`GenError.Explained.breach`).

# Sizes

A size, an offset or a depth that 64 bits do not hold is met only in a program
whose sizes they do not hold; lowering computes none. The size of an aggregate is
rounded up to its alignment on the way, so the sum that does this has to fit as
well.
Consumed by no other module.
-/
import MiniC.Proofs.Codegen.Generation
import MiniC.Proofs.Lowering.Failures
import MiniC.Proofs.Parser.Declarations

namespace MiniC

open Steps

/-- Whether the back ends fail on a program only as announced. -/
structure Program.FailsAsAnnounced (p : Program) (noRedZone : Bool) : Prop where
  undeclared : ∀ name, p.generate noRedZone = .error (.undeclared name) →
    ∃ f ∈ p.functions, f.name = name
  unknown : ∀ name, p.lower = .error (.unknownIdentifier name) → ∃ f ∈ p.functions, f.name = name
  genBreach : ∀ what, p.generate noRedZone = .error (.notReachable what) →
    what.describe = "storage of type void" ∨ ∃ rest, what.describe = "malformed literal" ++ rest
  lowerBreach : ∀ what, p.lower = .error (.notReachable what) →
    what.describe = "storage of type void" ∨ ∃ rest, what.describe = "malformed constant" ++ rest
  sizes : p.Representable → p.generate noRedZone ≠ .error .unrepresentable

/-- A breach that is explained, in words. -/
theorem GenError.Explained.breach {p : Program} {room : Prop} {what : GenBreach}
    (h : (GenError.notReachable what).Explained p room) :
    what.describe = "storage of type void"
      ∨ ∃ rest, what.describe = "malformed literal" ++ rest := by
  obtain rfl | ⟨text, rfl⟩ := h
  · exact Or.inl rfl
  · refine Or.inr ⟨" '" ++ text ++ "'", ?_⟩
    unfold GenBreach.describe
    rw [← String.append_assoc, ← String.append_assoc]
    rfl

/-- A breach of lowering that is explained, in words. -/
theorem LowerError.Explained.breach {p : Program} {what : LowerBreach}
    (h : (LowerError.notReachable what).Explained p) :
    what.describe = "storage of type void"
      ∨ ∃ rest, what.describe = "malformed constant" ++ rest := by
  obtain rfl | ⟨text, rfl⟩ := h
  · exact Or.inl rfl
  · refine Or.inr ⟨" '" ++ text ++ "'", ?_⟩
    unfold LowerBreach.describe
    rw [← String.append_assoc, ← String.append_assoc]
    rfl

/-- On an accepted text the back ends fail only as announced. -/
theorem frontend_failsAsAnnounced {source : String} {report report' : Report} {p : Program}
    (h : frontend source report = (.ok p, report')) (noRedZone : Bool) :
    p.FailsAsAnnounced noRedZone := by
  have hwf : p.WellFormed := frontend_wellFormed h
  have hgen : Only (GenError.Explained p p.Representable) (p.generate noRedZone) :=
    Codegen.generate_fails hwf (fun hroom => hroom) noRedZone
  have hlower : Only (LowerError.Explained p) p.lower := Lowering.lower_fails hwf
  exact {
    undeclared := fun _ hfail => hgen _ hfail
    unknown := fun _ hfail => hlower _ hfail
    genBreach := fun _ hfail => GenError.Explained.breach (hgen _ hfail)
    lowerBreach := fun _ hfail => LowerError.Explained.breach (hlower _ hfail)
    sizes := fun hroom hfail => hgen _ hfail hroom }

/-- A function that stands where a variable may, beside an aggregate with a
gap in it. -/
def functionAsVariable : String :=
  "struct Pair { char tag; long value; };
   int one() { return 1; }
   int main() { int n = one; Pair p; p.value = n; return n; }"

/-- The text is accepted, its sizes are small, and both back ends stumble over
the function, which is the reason they may give. -/
theorem functionAsVariable_failsAsAnnounced :
    ∃ p report', frontend functionAsVariable (.empty false) = (.ok p, report')
      ∧ p.FailsAsAnnounced true ∧ p.generate true = .error (.undeclared "one")
      ∧ p.lower = .error (.unknownIdentifier "one") ∧ p.Representable
      ∧ ∃ f ∈ p.functions, f.name = "one" := by
  have h : ((frontend functionAsVariable (.empty false)).1.toOption).any (fun p =>
      cause? (p.generate true) = some (.undeclared "one")
        ∧ cause? p.lower = some (.unknownIdentifier "one") ∧ p.Representable) = true := by
    set_option maxRecDepth 2000 in
    rw [frontend, tokenize_written (rfl : functionAsVariable = String.ofList _)]
    decide +kernel
  obtain ⟨p, hp, hfails⟩ := (Option.any_eq_true _ _).1 h
  obtain ⟨hgen, hlower, hroom⟩ := of_decide_eq_true hfails
  obtain ⟨report', hfront⟩ := frontend_of_toOption hp
  have hannounced : p.FailsAsAnnounced true := frontend_failsAsAnnounced hfront true
  have hundeclared := cause?_some.1 hgen
  exact ⟨p, report', hfront, hannounced, hundeclared, cause?_some.1 hlower, hroom,
    hannounced.undeclared _ hundeclared⟩

end MiniC
