import TypeLayout.Declaration.Keyword
import TypeLayout.Proofs.Building

/-!
# Types of C and their layout

What a C compiler makes of a type on one of the two targets: how many bytes it has, how it
is aligned, and where the fields of a struct start. Nothing here knows of items, runs or
nodes, and numbers have no limit. A struct or union carries the number of its body in the source,
so that two bodies with the same fields are two types.

An array of arrays is one row of elements. `Ty.count` says how many elements there are and
`Ty.base` what they are, and all that a layout needs is that sizes are multiples of
alignments (`Ty.align_dvd_size`).
-/

namespace TypeLayout.C

/-- The arithmetic types that have a size on both targets. -/
inductive Arithmetic where
  | char
  | signedChar
  | unsignedChar
  | short
  | unsignedShort
  | int
  | unsignedInt
  | long
  | unsignedLong
  | longLong
  | unsignedLongLong
  | float
  | double
  | bool
deriving DecidableEq, Repr

/-- The scalar that an arithmetic type is. -/
def Arithmetic.element (target : Target) : Arithmetic → Element
  | char | signedChar | unsignedChar | bool => .int8
  | short | unsignedShort => .int16
  | int | unsignedInt => .int32
  | long | unsignedLong => target.long
  | longLong | unsignedLongLong => .int64
  | float => .float32
  | double => .float64

/-- **Complete types.** What a pointer points to and what a function takes and returns
makes no difference to a layout. -/
inductive Ty where
  | arithmetic (a : Arithmetic)
  | enum
  | pointer
  | function
  | array (n : ℕ) (t : Ty)
  /-- A struct or union, with the number of its body. -/
  | record (body : ℕ) (kind : TagKind) (fields : List Ty)
deriving Repr

namespace Ty

/-- The size of a scalar in bytes. -/
def scalarSize (target : Target) (e : Element) : ℕ := (target.scalarSize? e).getD 0

/-- The alignment of a scalar in bytes. -/
def scalarAlign (target : Target) (e : Element) : ℕ := (target.scalarAlign? e).getD 1

section Layout

variable (target : Target)

mutual

/-- The alignment of a type in bytes. -/
def align : Ty → ℕ
  | arithmetic a => scalarAlign target (a.element target)
  | enum => scalarAlign target .enum
  | pointer => scalarAlign target .pointer
  | function => 1
  | array _ t => t.align
  | record _ _ fields => alignOf fields

/-- The largest alignment of some fields. -/
def alignOf : List Ty → ℕ
  | [] => 1
  | t :: ts => max t.align (alignOf ts)

end

mutual

/-- **The size of a type in bytes.** The fields of a struct stand one after the other, each
at the next multiple of its alignment; the members of a union all start at its start. -/
def size : Ty → ℕ
  | arithmetic a => scalarSize target (a.element target)
  | enum => scalarSize target .enum
  | pointer => scalarSize target .pointer
  | function => 0
  | array n t => n * t.size
  | record _ .struct fields => roundUp (stop 0 fields) (alignOf target fields)
  | record _ .union fields => roundUp (widest fields) (alignOf target fields)

/-- Where the last of some fields ends that are placed from somewhere on. -/
def stop (start : ℕ) : List Ty → ℕ
  | [] => start
  | t :: ts => stop (roundUp start (t.align target) + t.size) ts

/-- The size of the widest of some members. -/
def widest : List Ty → ℕ
  | [] => 0
  | t :: ts => max t.size (widest ts)

end

/-- **Where a field starts** that comes after some others. -/
def offset (front : List Ty) (t : Ty) : ℕ := roundUp (stop target 0 front) (t.align target)

end Layout

/-- How many elements a type consists of. -/
def count : Ty → ℕ
  | array n t => n * t.count
  | _ => 1

/-- What the elements of a type are. -/
def base : Ty → Ty
  | array _ t => t.base
  | t => t

variable {target : Target}

/-! ### Numbers that fit -/

/-- The fields that are placed one after the other. -/
def structFields : Ty → List Ty
  | record _ .struct fields => fields
  | _ => []

/-- How many elements some fields have that take no bytes. -/
def weightless (target : Target) (fields : List Ty) : ℕ :=
  (fields.map fun t => if t.size target = 0 then t.count else 0).sum

/-- **The numbers of a type fit into 64 bits**: its size, and how many elements without bytes
it has if it is a struct. -/
structure Fits (target : Target) (t : Ty) : Prop where
  size : t.size target < wordSize
  counts : weightless target t.structFields < wordSize

instance (target : Target) (t : Ty) : Decidable (t.Fits target) :=
  decidable_of_iff (t.size target < wordSize ∧ weightless target t.structFields < wordSize)
    ⟨fun h => ⟨h.1, h.2⟩, fun h => ⟨h.size, h.counts⟩⟩

theorem size_eq (target : Target) : (t : Ty) → t.size target = t.base.size target * t.count
  | array n t => by
    rw [size, base, count, size_eq target t]
    ring
  | arithmetic _ | enum | pointer | function | record _ _ _ => by simp [base, count]

/-! ### Fields at the end -/

theorem stop_append (start : ℕ) (front rear : List Ty) :
    stop target start (front ++ rear) = stop target (stop target start front) rear := by
  induction front generalizing start with
  | nil => rfl
  | cons t front ih => rw [List.cons_append, stop, ih, stop]

theorem stop_concat (front : List Ty) (t : Ty) :
    stop target 0 (front ++ [t]) = offset target front t + t.size target := by
  rw [stop_append, stop, stop, offset]

theorem alignOf_concat (front : List Ty) (t : Ty) :
    alignOf target (front ++ [t]) = max (alignOf target front) (t.align target) := by
  induction front with
  | nil => simp [alignOf, Nat.max_comm]
  | cons x front ih => rw [List.cons_append, alignOf, ih, alignOf, max_assoc]

theorem widest_concat (front : List Ty) (t : Ty) :
    widest target (front ++ [t]) = max (widest target front) (t.size target) := by
  induction front with
  | nil => simp [widest]
  | cons x front ih => rw [List.cons_append, widest, ih, widest, max_assoc]

/-! ### Sizes are multiples of alignments -/

theorem one_le_alignOf : (ts : List Ty) → 1 ≤ alignOf target ts
  | [] => by simp [alignOf]
  | t :: ts => (one_le_alignOf ts).trans (by rw [alignOf]; exact le_max_right _ _)

theorem one_le_align : (t : Ty) → 1 ≤ t.align target
  | arithmetic a => by rw [align]; cases a <;> cases target <;> decide
  | enum | pointer => by rw [align]; cases target <;> decide
  | function => by simp [align]
  | array n t => by rw [align]; exact one_le_align t
  | record _ _ fields => by rw [align]; exact one_le_alignOf fields

/-- **The size of a type is a multiple of its alignment.** -/
theorem align_dvd_size : (t : Ty) → t.align target ∣ t.size target
  | arithmetic a => by rw [align, size]; cases a <;> cases target <;> decide
  | enum | pointer => by rw [align, size]; cases target <;> decide
  | function => by simp [align]
  | array n t => by rw [align, size]; exact (align_dvd_size t).mul_left n
  | record _ .struct fields | record _ .union fields => by
    rw [align, size]
    exact dvd_roundUp _ (one_le_alignOf fields)

end Ty

end TypeLayout.C
