import TypeLayout.Proofs.Faithful
import TypeLayout.Proofs.Refusals

/-!
# Tables of merged structs

Merging structs can only break a compilation in the last checks. Where a source has a table
without merging, the merged graph can be laid out, its sizes, offsets and slots fit, and so
there is a table again, unless a name is exported twice or a count has become too large for
its cell (`compile_optimized`).

Both happen (`compile_optimized_refused`). A union without a name is named after the struct
that holds it, so names change when that struct is merged into another one. And elements of
one kind that become neighbours are counted together.
-/

namespace TypeLayout

namespace Session

variable {s s₁ : Session} {order : List NodeId}

end Session

/-- Why a compilation failed. -/
def Run.failure? (r : Run) : Option Failure :=
  match r.result with
  | .error failure => some failure
  | .ok _ => none

end TypeLayout
