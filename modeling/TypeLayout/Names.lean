/-!
# Interned names

A compilation meets the same few names again and again: tags, typedef names,
fields, the names the user asks for. They are kept once, in a `Names` table, and
everything else holds a `NameId`, the position of the name in that table.

* `Names.insert` gives a name its position, the old one if it has been seen
  before and the next free one otherwise, so positions are dense and in the order
  of first insertion;
* `Names.find?` looks a spelling up without adding it;
* `Names.get?` goes back from the position to the spelling.

A table has two halves (`NameTable`), one to look a spelling up in and one to look
a position up in, and nothing in their types says that the halves agree. They do
because every table comes from insertions (`NameTable.Reached`), which change both.
Positions are natural numbers; no limit on their size is modelled.
-/

namespace TypeLayout

/-- The position of a name in a `Names` table. -/
abbrev NameId := Nat

/-- The two halves of a table of names. -/
structure NameTable where
  /-- The positions of spellings, the spelling inserted last in front. -/
  index : List (String × NameId) := []
  /-- The spellings at the positions. -/
  spellings : Array String := #[]
deriving DecidableEq

namespace NameTable

/-- The position of a spelling. -/
def find? (table : NameTable) (s : String) : Option NameId := table.index.lookup s

/-- The spelling at a position. -/
def get? (table : NameTable) (id : NameId) : Option String := table.spellings[id]?

/-- The position of a spelling, which is added to both halves when it is new. -/
def insert (table : NameTable) (s : String) : NameId × NameTable :=
  match table.find? s with
  | some id => (id, table)
  | none =>
    let id := table.spellings.size
    (id, ⟨(s, id) :: table.index, table.spellings.push s⟩)

/-- The tables that insertions lead to. -/
inductive Reached : NameTable → Prop
  | empty : Reached {}
  | insert {table : NameTable} (h : Reached table) (s : String) : Reached (table.insert s).2

variable {table : NameTable} {x : String} {id : NameId}

theorem insert_of_find? (h : table.find? x = some id) : table.insert x = (id, table) := by
  simp only [insert, h]

theorem insert_of_find?_eq_none (h : table.find? x = none) : table.insert x =
    (table.spellings.size, ⟨(x, table.spellings.size) :: table.index, table.spellings.push x⟩) := by
  simp only [insert, h]

theorem find?_insert (table : NameTable) (x y : String) :
    (table.insert x).2.find? y = if y = x then some (table.insert x).1 else table.find? y := by
  cases hx : table.find? x with
  | some id =>
    rw [insert_of_find? hx]
    split
    · rename_i h
      rw [h, hx]
    · rfl
  | none =>
    rw [insert_of_find?_eq_none hx]
    by_cases h : y = x
    · simp [find?, h]
    · simp [find?, List.lookup_cons, h, beq_false_of_ne h]

theorem get?_insert_of_none (h : table.find? x = none) (id : NameId) :
    (table.insert x).2.get? id = if id = (table.insert x).1 then some x else table.get? id := by
  simp only [insert_of_find?_eq_none h, get?, Array.getElem?_push]

/-- **The two halves agree.** -/
theorem Reached.find?_iff (h : table.Reached) (x : String) (id : NameId) :
    table.find? x = some id ↔ table.get? id = some x := by
  induction h generalizing x id with
  | empty => simp [find?, get?]
  | @insert table h s ih =>
    cases hs : table.find? s with
    | some _ => rw [insert_of_find? hs]; exact ih x id
    | none =>
      have hfree : table.get? (table.insert s).1 = none := by
        simp [insert_of_find?_eq_none hs, get?]
      rw [find?_insert, get?_insert_of_none hs]
      -- the new position was free, and the new spelling had none
      by_cases hx : x = s <;> by_cases hid : id = (table.insert s).1
      · simp [hx, hid]
      · simp [hx, hid, Ne.symm hid, ← ih, hs]
      · simp [hx, Ne.symm hx, hid, ih, hfree]
      · simp [hx, hid, ih]

end NameTable

/-- A table of names: the distinct spellings seen so far, in the order in which they
were first inserted. -/
structure Names where
  table : NameTable := {}
  reached : table.Reached := by exact .empty
deriving DecidableEq

namespace Names

/-- The position of a spelling, if it has been inserted. -/
def find? (names : Names) (s : String) : Option NameId := names.table.find? s

/-- The position of a spelling, which is added at the end when it is new. -/
def insert (names : Names) (s : String) : NameId × Names :=
  let added := names.table.insert s
  (added.1, ⟨added.2, names.reached.insert s⟩)

/-- The spelling at a position. -/
def get? (names : Names) (id : NameId) : Option String := names.table.get? id

/-- The spelling at a position, empty for a position the table does not hold. -/
def spell (names : Names) (id : NameId) : String :=
  (names.get? id).getD ""

/-- The answer to a request for a position that the table does not hold. -/
def notFound : String := "StringId Not Found"

/-- The registry spelling of a tag, such as `struct foo`. -/
def tagSpelling (keyword name : String) : String :=
  keyword ++ " " ++ name

/-! ### Positions stay good -/

variable {id : NameId} {names : Names} {x : String}

/-- Positions that have been handed out keep their spelling. -/
def Extends (names names' : Names) : Prop :=
  ∀ id s, names.get? id = some s → names'.get? id = some s

theorem Extends.refl (names : Names) : names.Extends names := fun _ _ h => h

theorem Extends.trans {names' names'' : Names} (h : names.Extends names')
    (h' : names'.Extends names'') :
    names.Extends names'' := fun id x hx => h' id x (h id x hx)

/-- A spelling has the position that leads to it, and no other. -/
theorem find?_iff : names.find? x = some id ↔ names.get? id = some x :=
  names.reached.find?_iff x id

theorem get?_of_find? (h : names.find? x = some id) : names.get? id = some x := find?_iff.mp h

theorem get?_spell (h : ∃ x, names.get? id = some x) : names.get? id = some (names.spell id) := by
  obtain ⟨x, hx⟩ := h
  rw [spell, hx]
  rfl

theorem insert_of_some (h : names.find? x = some id) : names.insert x = (id, names) := by
  obtain ⟨table, reached⟩ := names
  have hsame : table.insert x = (id, table) := NameTable.insert_of_find? h
  simp only [insert, hsame]

theorem find?_insert (names : Names) (x y : String) :
    (names.insert x).2.find? y = if y = x then some (names.insert x).1 else names.find? y :=
  NameTable.find?_insert names.table x y

theorem get?_insert (names : Names) (s : String) :
    (names.insert s).2.get? (names.insert s).1 = some s := by
  rw [← find?_iff, find?_insert, if_pos rfl]

theorem get?_insert_of_none (h : names.find? x = none) : names.get? (names.insert x).1 = none := by
  simp [insert, NameTable.insert_of_find?_eq_none h, get?, NameTable.get?]

theorem extends_insert (names : Names) (s : String) : names.Extends (names.insert s).2 := by
  intro id x hx
  rw [← find?_iff] at hx ⊢
  rw [find?_insert]
  split
  · rename_i h
    rw [insert_of_some (h ▸ hx)]
  · exact hx

/-- Two spellings have two positions. -/
theorem eq_of_find? {y : String} (hx : names.find? x = some id) (hy : names.find? y = some id) :
    x = y :=
  Option.some.inj ((get?_of_find? hx).symm.trans (get?_of_find? hy))

end Names

end TypeLayout
