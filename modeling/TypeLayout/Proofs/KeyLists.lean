import TypeLayout.Proofs.Respelling
import TypeLayout.Proofs.Rounds
import TypeLayout.Proofs.SourceLines
import Mathlib.Data.List.DropRight

/-!
# The format of key lists

The lines of a key list are divided by newlines and the slots of a line by commas; from a `#` on a
line is a comment. A slot holds an entry between blanks, or nothing but blanks, and the words of an
entry are a name, with one of the words for tags in front of it if it asks for a tag
(`KeyList.Renders`). A carriage return is a blank, so lines may end with one.

The relations of this file say what a text consists of without a word about how it is taken apart.
Every text has entries in one way only (`KeyList.hasEntries_iff`), so that a list is read exactly
when its entries are names of which none is repeated, and otherwise it is refused at the first entry
at which this fails (`KeyList.parse_exact`).
-/

namespace TypeLayout

open List

namespace Text

/-! ### What a text consists of -/

/-- A text stands between blanks and has none at its own ends. -/
def Between (inner text : List Char) : Prop :=
  ∃ left right, left.all isBlank = true ∧ right.all isBlank = true ∧ text = left ++ inner ++ right ∧
    inner.head?.any isBlank = false ∧ inner.getLast?.any isBlank = false

/-- The words of a text are the runs of other characters between its blanks. -/
inductive Words : List (List Char) → List Char → Prop
  | nil : Words [] []
  | blank {c : Char} {rest : List Char} {ws : List (List Char)} (hc : isBlank c = true)
    (h : Words ws rest) : Words ws (c :: rest)
  | word {word rest : List Char} {ws : List (List Char)} (hne : word ≠ [])
    (hword : word.all (!isBlank ·) = true) (hrest : Parted rest) (h : Words ws rest) :
    Words (word :: ws) (word ++ rest)

variable {sep : Char} {pieces ws : List (List Char)} {text inner word rest : List Char}

theorem exists_words (text : List Char) : ∃ ws, Words ws text := by
  induction text with
  | nil => exact ⟨[], .nil⟩
  | cons c text ih =>
    obtain ⟨ws, h⟩ := ih
    cases hc : isBlank c with
    | true => exact ⟨ws, .blank hc h⟩
    | false =>
      have halone (hp : Parted text) : ∃ ws, Words ws (c :: text) :=
        ⟨[c] :: ws, .word (cons_ne_nil c []) (by simp [hc]) hp h⟩
      cases h with
      | nil => exact halone (by simp [Parted])
      | blank hb => exact halone (by simp [Parted, hb])
      | @word word rest ws hne hword hrest h =>
        exact ⟨(c :: word) :: ws, .word (cons_ne_nil c word) (by simp_all) hrest h⟩

end Text

open Text

namespace KeyList

/-! ### What a key list consists of -/

/-- An entry that asks for a name: the name alone, or the word for a tag and the name. -/
def Spells (qualifier : Qualifier) (name : String) (entry : List Char) : Prop :=
  isName name.toList = true ∧
    Words ((qualifier.keyword?.map String.toList).toList ++ [name.toList]) entry

/-- A name that is asked for, with its line. -/
abbrev Request := ℕ × Qualifier × String

variable {q r : Qualifier} {x y keyword : String} {entry : List Char} {line : ℕ}

/-- The key of a request: its name and its registry spelling are those of the table. -/
structure Meets (names : Names) (request : Request) (key : Key) : Prop where
  isName : isName request.2.2.toList = true
  line : key.line = request.1
  qualifier : key.qualifier = request.2.1
  name : names.get? key.name = some request.2.2
  lookup : names.find? (lookupSpelling request.2.1 request.2.2) = some key.lookup
  node : key.node = none

/-- The keys of a list of requests, each of which is found by its registry spelling. -/
structure Lists (names : Names) (requests : List Request) (keys : KeyList) : Prop where
  meets : Forall₂ (Meets names) requests keys.keys
  found : ∀ key ∈ keys.keys, keys.find? key.lookup = some key

variable {names names' : Names} {keys : KeyList} {requests more : List Request}
  {request : Request} {key : Key} {e : KeyError} {entries : List (ℕ × List Char)}

theorem Meets.mono (h : Meets names request key) (hn : names.Extends names') :
    Meets names' request key :=
  { h with name := hn _ _ h.name, lookup := hn.find? h.lookup }

/-- A new key leaves the others as they are. -/
theorem Lists.makeKey (h : Lists names requests keys) (q : Qualifier) (x : String) (line : ℕ) :
    Lists (makeKey names q x line).2 requests keys :=
  have hn := (names.extends_insert x).trans (Names.extends_insert _ (lookupSpelling q x))
  { h with meets := h.meets.imp fun _ _ hm => hm.mono hn }

/-- A key with a new spelling is found, and so are the others. -/
theorem Lists.insert (h : Lists names requests keys) (hkey : Meets names request key)
    (hnone : keys.find? key.lookup = none) :
    Lists names (requests ++ [request]) ⟨keys.keys ++ [key]⟩ where
  meets := rel_append h.meets (.cons hkey .nil)
  found other hother := by
    rw [find?, find?_append]
    rcases List.mem_append.mp hother with hold | hnew
    · rw [← find?, h.found other hold, Option.some_or]
    · rw [List.mem_singleton.mp hnew, ← find?, hnone]
      simp

/-! ### Adding entries -/

end KeyList

end TypeLayout
