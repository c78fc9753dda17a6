import TypeLayout.Proofs.Constants
import TypeLayout.Proofs.Decoding
import TypeLayout.Proofs.JumpSlots
import TypeLayout.Proofs.SourceLines
import TypeLayout.Table.CText

/-!
# The C source carries the table

The C source of a table can be read again, line by line (`CNames.readTable?`). Between the lines
that open and close the table, the lines give its words and the names of its nodes, each name with
the number of the word behind it; in the branch for messaging they give the converters that are
declared and the slots of the jump table. Names are put between the words while both are gone
through side by side, and the first one that does not fit would hold up all others. The starts of a
table stand in order, so none of them is lost (`carries_cellLines`), and what is read is what the
table has (`readTable?_toC_compile`).
-/

namespace TypeLayout

open List

namespace Text

/-- Lines, each with its end. -/
def unlines (lines : List (List Char)) : List Char := lines.flatMap (· ++ ['\n'])

theorem splitAt_unlines {lines : List (List Char)} (h : ∀ line ∈ lines, '\n' ∉ line) :
    splitAt '\n' (unlines lines) = lines ++ [[]] := by
  rw [splitAt_eq_splitOn]
  induction lines with
  | nil => rfl
  | cons line lines ih =>
    obtain ⟨hline, hlines⟩ := List.forall_mem_cons.mp h
    rw [unlines, flatMap_cons, append_assoc, singleton_append,
      splitOn_append_cons_self_of_not_mem hline, cons_append]
    exact congrArg _ (ih hlines)

/-- What stands on a line between a front and a back. -/
def inside? (front back : String) (line : List Char) : Option (List Char) :=
  (line.dropPrefix? front.toList).bind (·.dropSuffix? back.toList)

theorem inside?_append (front back : String) (text : List Char) :
    inside? front back (front.toList ++ (text ++ back.toList)) = some text := by
  rw [inside?, List.dropPrefix?_eq_some_iff.mpr ⟨_, rfl, beq_self_eq_true _⟩]
  exact List.dropSuffix?_eq_some_iff.mpr ⟨_, rfl, beq_self_eq_true _⟩

end Text

/-! ### Reading the source -/

/-- What the C source of a table says: the words, the names of nodes with the number of the word
behind each, the unions whose converters are declared, and the slots of the jump table. -/
structure Listing where
  words : List ℕ
  starts : List (ℕ × String)
  declared : List String
  slots : List JumpSlot
deriving DecidableEq

namespace CNames

/-- The word on a line, in hexadecimal. -/
def readWord? (line : List Char) : Option ℕ :=
  (Text.inside? "    0x" " */" line).bind fun text =>
    if "u, /* ".toList.isPrefixOf (text.dropWhile isHexDigit) then
      some (digitsValue 16 (text.takeWhile isHexDigit))
    else none

/-- Words from the one with some number on, and the names between them. -/
def readWords? : ℕ → List (List Char) → Option (List ℕ × List (ℕ × String))
  | _, [] => some ([], [])
  | i, line :: lines =>
    match Text.inside? s!"    /* {i}: " " */" line with
    | some name => (readWords? i lines).map fun r => (r.1, (i, String.ofList name) :: r.2)
    | none => (readWord? line).bind fun word =>
        (readWords? (i + 1) lines).map fun r => (word :: r.1, r.2)

/-- What stands for a list that is empty. -/
def zero : List (List Char) := ["    0".toList]

/-- Reads the lines up to the one that closes a table. -/
def readBlock? {α : Type} (read : List (List Char) → Option α) (empty : α)
    (lines : List (List Char)) : Option α :=
  let block := lines.takeWhile (· != "\x7d;".toList)
  if block = zero then some empty else if block = [] then none else read block

variable (names : CNames)

/-- Slots of the jump table from the one with some index on. -/
def readSlots? : ℕ → List (List Char) → Option (List JumpSlot)
  | _, [] => some []
  | i, line :: lines =>
    (Text.inside? s!"    {names.lead}convert_" s!", /* {i} */" line).bind fun union =>
      (readSlots? (i + 1) lines).map (⟨i, String.ofList union⟩ :: ·)

/-- Declarations of converters. -/
def readDeclared? (lines : List (List Char)) : Option (List String) :=
  lines.mapM fun line =>
    (Text.inside? s!"extern int {names.lead}convert_" "();" line).map String.ofList

/-- Reads the C source of a table. -/
def readTable? (text : String) : Option Listing :=
  let cells :=
    ((Text.splitAt '\n' text.toList).dropWhile (!"const ".toList.isPrefixOf ·)).tail
  let messaging := (cells.dropWhile (· != "#ifdef TYPEDESC_MESSAGING".toList)).tail
  let slots := (messaging.dropWhile ("();".toList.isSuffixOf ·)).tail
  (readBlock? (readWords? 0) ([], []) cells).bind fun r =>
    (names.readDeclared? (messaging.takeWhile ("();".toList.isSuffixOf ·))).bind fun declared =>
      (readBlock? (names.readSlots? 0) [] slots).map fun slots => ⟨r.1, r.2, declared, slots⟩

end CNames

open CNames

/-! ### Blocks of lines -/

/-- A line within a table. -/
def Indented (line : List Char) : Prop := '\n' ∉ line ∧ line.head? = some ' '

/-- A list is written as it is, and a zero stands for an empty one. -/
theorem exists_block {α : Type} {read : List (List Char) → Option α} {empty r : α}
    {written : List String} {lines : List (List Char)}
    (hjoin : (String.join written).toList = Text.unlines lines)
    (hlines : ∀ line ∈ lines, Indented line) (hread : read lines = some r)
    (hnil : read [] = some empty) (hzero : read zero = none) (hempty : r = empty → written = []) :
    ∃ block, (if written.isEmpty then "    0\n" else String.join written).toList =
        Text.unlines block ∧ (∀ line ∈ block, Indented line) ∧
      ∀ rest, readBlock? read empty (block ++ "\x7d;".toList :: rest) = some r := by
  have hblock {block rest : List (List Char)} (h : ∀ line ∈ block, Indented line) :
      (block ++ "\x7d;".toList :: rest).takeWhile (· != "\x7d;".toList) = block := by
    rw [takeWhile_append_of_pos, takeWhile_cons_of_neg (by decide), append_nil]
    intro line hline
    rw [bne_iff_ne]
    rintro rfl
    simpa using (h _ hline).2
  by_cases hw : written = []
  · subst hw
    obtain rfl : lines = [] := by
      cases lines with
      | nil => rfl
      | cons line lines => simp [Text.unlines] at hjoin
    have hindented : ∀ line ∈ zero, Indented line := by unfold Indented; decide
    refine ⟨zero, by decide, hindented, fun rest => ?_⟩
    rw [readBlock?, hblock hindented, if_pos rfl, ← hnil, hread]
  · refine ⟨lines, ?_, hlines, fun rest => ?_⟩
    · rwa [if_neg (by simpa using hw)]
    · rw [readBlock?, hblock hlines, if_neg, if_neg, hread]
      · rintro rfl
        exact hw (hempty (Option.some.inj (hread.symm.trans hnil)))
      · rintro rfl
        cases hread.symm.trans hzero

/-! ### Words and names -/

theorem isHexDigit_digitChar {n : ℕ} (h : n < 16) :
    isHexDigit n.digitChar = true ∧ digitValue n.digitChar = n := by
  interval_cases n <;> decide

theorem hexDigits_spec (n : ℕ) : (∀ c ∈ Nat.toDigits 16 n, isHexDigit c = true) ∧
    digitsValue 16 (Nat.toDigits 16 n) = n := by
  induction n using Nat.strong_induction_on with | _ n ih =>
  rcases Nat.lt_or_ge n 16 with hlt | hge
  · rw [Nat.toDigits_of_lt_base hlt]
    simpa [digitsValue] using isHexDigit_digitChar hlt
  · obtain ⟨hdigits, hvalue⟩ := ih (n / 16) (by omega)
    obtain ⟨hdigit, hlast⟩ := isHexDigit_digitChar (Nat.mod_lt n (show 0 < 16 by decide))
    rw [Nat.toDigits_of_base_le (by decide) hge]
    refine ⟨by simpa [or_imp, forall_and] using ⟨hdigits, hdigit⟩, ?_⟩
    rw [digitsValue, foldl_append, ← digitsValue, hvalue]
    simp only [foldl_cons, foldl_nil, hlast]
    omega

theorem unbroken_describe (c : Cell) : Unbroken c.describe := by
  have hword (code : Char) : '\n' ∉ (Cell.codeWord code).toList := by
    unfold Cell.codeWord
    repeat' split
    all_goals decide
  cases c with
  | field count code last =>
    cases last <;> simp [Cell.describe, Unbroken, newline_not_mem_toDigits, hword, toString_text]
  | _ => simp [Cell.describe, Unbroken, newline_not_mem_toDigits, toString_text]

/-- The line of a word. -/
def wordLine (c : Cell) (value : ℕ) : List Char :=
  "    0x".toList ++ ((Nat.toDigits 16 value ++ ("u, /* ".toList ++ c.describe.toList)) ++
    " */".toList)

theorem wordLine_spec (c : Cell) (value i : ℕ) : Indented (wordLine c value) ∧
    Text.inside? s!"    /* {i}: " " */" (wordLine c value) = none ∧
    readWord? (wordLine c value) = some value := by
  obtain ⟨hdigits, hvalue⟩ := hexDigits_spec value
  have hnote : '\n' ∉ c.describe.toList := unbroken_describe c
  have hhex : '\n' ∉ Nat.toDigits 16 value := fun hmem => absurd (hdigits _ hmem) (by decide)
  refine ⟨⟨?_, ?_⟩, ?_, ?_⟩
  · simp [wordLine, hnote, hhex]
  · simp [wordLine]
  · simp [wordLine, Text.inside?, List.dropPrefix?, toString_text]
  · have hstop : isHexDigit 'u' = false := by decide
    rw [readWord?, wordLine, Text.inside?_append, Option.bind_some,
      takeWhile_append_of_pos hdigits, dropWhile_append_of_pos hdigits]
    simp [hstop, hvalue]

/-- A text whose lines are indented and give words and names when they are read. -/
def Carries (i : ℕ) (text : List Char) (words : List ℕ) (starts : List (ℕ × String)) : Prop :=
  ∃ lines, text = Text.unlines lines ∧ (∀ line ∈ lines, Indented line) ∧
    readWords? i lines = some (words, starts)

variable {i : ℕ} {text : List Char} {words : List ℕ} {starts : List (ℕ × String)}

theorem Carries.word (h : Carries (i + 1) text words starts) (c : Cell) (value : ℕ) :
    Carries i (s!"    0x{Text.hexDigits value}u, /* {c.describe} */\n".toList ++ text)
      (value :: words) starts := by
  obtain ⟨lines, rfl, hlines, hread⟩ := h
  obtain ⟨hline, hother, hword⟩ := wordLine_spec c value i
  refine ⟨wordLine c value :: lines, ?_, List.forall_mem_cons.mpr ⟨hline, hlines⟩, ?_⟩
  · simp [wordLine, Text.hexDigits, toString_text, Text.unlines]
  · rw [readWords?, hother, hword, hread]
    rfl

theorem Carries.start (h : Carries i text words starts) {name : String} (hname : Unbroken name) :
    Carries i (s!"    /* {i}: {name} */\n".toList ++ text) words ((i, name) :: starts) := by
  obtain ⟨lines, rfl, hlines, hread⟩ := h
  have hname : '\n' ∉ name.toList := hname
  refine ⟨(s!"    /* {i}: ".toList ++ (name.toList ++ " */".toList)) :: lines, ?_,
    List.forall_mem_cons.mpr ⟨⟨?_, ?_⟩, hlines⟩, ?_⟩
  · simp [Text.unlines, toString_text]
  · simp [toString_text, newline_not_mem_toDigits, hname]
  · simp [toString_text]
  · rw [readWords?, Text.inside?_append, hread]
    simp

theorem toList_join_cons (x : String) (l : List String) :
    (String.join (x :: l)).toList = x.toList ++ (String.join l).toList := by
  rw [String.join_cons, String.toList_append]

/-- **The lines of the words** can be read, and so can the names between them, if these stand in
order and in front of words. -/
theorem carries_cellLines {cells : List (Cell × ℕ)} (hnames : ∀ p ∈ starts, Unbroken p.2)
    (hsorted : starts.Pairwise fun p q => p.1 < q.1)
    (hstarts : ∀ p ∈ starts, i ≤ p.1 ∧ p.1 < i + cells.length) :
    Carries i (String.join (DescriptorTable.cellLines i starts cells)).toList (cells.map (·.2))
      starts := by
  fun_induction DescriptorTable.cellLines i starts cells with
  | case1 i starts =>
    obtain rfl : starts = [] := List.eq_nil_iff_forall_not_mem.mpr fun p hp => by
      have := hstarts p hp
      simp only [length_nil] at this
      omega
    exact ⟨[], rfl, by simp, rfl⟩
  | case2 c value cells line more i name ih =>
    rw [pairwise_cons] at hsorted
    obtain ⟨hname, hnames⟩ := List.forall_mem_cons.mp hnames
    have hmore := ih hnames hsorted.2 fun p hp => by
      have := hsorted.1 p hp
      have := hstarts p (mem_cons_of_mem _ hp)
      simp only [length_cons] at this
      omega
    rw [toList_join_cons, toList_join_cons]
    exact (hmore.word c value).start hname
  | case3 i c value cells line offset name more hne ih =>
    rw [toList_join_cons]
    refine (ih hnames hsorted fun p hp => ?_).word c value
    have hfirst := (hstarts (offset, name) mem_cons_self).1
    have hlast := (hstarts p hp).2
    have hle : offset ≤ p.1 := by
      rcases List.mem_cons.mp hp with rfl | hp
      · exact le_rfl
      · exact ((List.pairwise_cons.mp hsorted).1 p hp).le
    simp only [length_cons] at hlast
    omega
  | case4 i c value cells line ih =>
    rw [toList_join_cons]
    exact (ih (by simp) .nil (by simp)).word c value

/-! ### Converters -/

section Converters

variable (names : CNames)

/-- The line of a slot. -/
def slotLine (slot : JumpSlot) : List Char :=
  s!"    {names.lead}convert_".toList ++ (slot.union.toList ++ s!", /* {slot.index} */".toList)

/-- The line that declares a converter. -/
def externLine (union : String) : List Char :=
  s!"extern int {names.lead}convert_".toList ++ (union.toList ++ "();".toList)

theorem readSlots?_lines {slots : List JumpSlot}
    (h : ∀ (j : ℕ) slot, slots[j]? = some slot → slot.index = i + j) :
    names.readSlots? i (slots.map (slotLine names)) = some slots := by
  induction slots generalizing i with
  | nil => rfl
  | cons slot slots ih =>
    obtain ⟨index, union⟩ := slot
    obtain rfl : index = i := h 0 _ rfl
    rw [map_cons, readSlots?, slotLine, Text.inside?_append, Option.bind_some,
      ih fun j slot hj => by simpa [Nat.add_assoc, Nat.add_comm 1] using h (j + 1) slot hj]
    simp

theorem readSlots?_zero : names.readSlots? 0 zero = none := by
  have hfront : Text.inside? s!"    {names.lead}convert_" s!", /* {0} */" "    0".toList = none := by
    rw [Text.inside?, Option.bind_eq_none_iff]
    intro text htext
    obtain ⟨front, heq, hfront⟩ := List.dropPrefix?_eq_some_iff.mp htext
    obtain rfl := eq_of_beq hfront
    have := congrArg List.length heq
    simp [toString_text] at this
    omega
  rw [zero, readSlots?, hfront, Option.bind_none]

theorem readDeclared?_lines (unions : List String) :
    names.readDeclared? (unions.map (externLine names)) = some unions := by
  induction unions with
  | nil => rfl
  | cons union unions ih =>
    rw [readDeclared?] at ih ⊢
    rw [map_cons, mapM_cons, externLine, Text.inside?_append, ih]
    simp

end Converters

/-! ### The whole source -/

/-- The lines of the C source of a table, with those of its words and of its converters. -/
def tableLines (names : CNames) (cellType : String) (cells externs slots : List (List Char)) :
    List (List Char) :=
  "/* Descriptor table generated by typedescc.  Do not edit. */".toList ::
    s!"#include \"{names.headerFile}\"".toList :: [] ::
    s!"const {cellType} {names.table}[] = \x7b".toList :: (cells ++
    "\x7d;".toList :: [] :: "#ifdef TYPEDESC_MESSAGING".toList :: (externs ++
    s!"{names.convertFn} {names.jump}[] = \x7b".toList :: (slots ++
    ["\x7d;".toList, "#else".toList, s!"{names.convertFn} {names.jump}[] = \x7b 0 \x7d;".toList,
      "#endif".toList])))

section Names

variable {lead header : String} (hlead : Unbroken lead) {unions : List String}
  {cells slots : List (List Char)}

include hlead

theorem unbroken_tableLines (hheader : Unbroken header) (target : Target)
    (hcells : ∀ line ∈ cells, Indented line) (hslots : ∀ line ∈ slots, Indented line)
    (hunions : ∀ union ∈ unions, Unbroken union) :
    ∀ line ∈ tableLines (.make lead header) target.cellType cells
      (unions.map (externLine (.make lead header))) slots, '\n' ∉ line := by
  have hlead : '\n' ∉ lead.toList := hlead
  have hheader : '\n' ∉ header.toList := hheader
  have htype : '\n' ∉ target.cellType.toList := by cases target <;> decide
  have hexterns : ∀ line ∈ unions.map (externLine (.make lead header)), '\n' ∉ line := by
    intro line hline
    obtain ⟨union, hunion, rfl⟩ := List.mem_map.mp hline
    have hunion : '\n' ∉ union.toList := hunions union hunion
    simp [externLine, make, toString_text, hlead, hunion]
  simp only [tableLines, forall_mem_cons, forall_mem_append]
  refine ⟨by decide, ?_, by decide, ?_, fun line hline => (hcells line hline).1, by decide,
    by decide, by decide, hexterns, ?_, fun line hline => (hslots line hline).1, by decide,
    by decide, ?_, by decide, by simp⟩
  all_goals simp [make, toString_text, hlead, hheader, htype]

theorem indented_slotLine {slot : JumpSlot} (hunion : Unbroken slot.union) :
    Indented (slotLine (.make lead header) slot) := by
  have hlead : '\n' ∉ lead.toList := hlead
  have hunion : '\n' ∉ slot.union.toList := hunion
  refine ⟨?_, ?_⟩ <;> simp [slotLine, make, toString_text, newline_not_mem_toDigits, hlead, hunion]

end Names

/-- **A source of these lines** is read part by part. -/
theorem readTable?_tableLines {names : CNames} {cellType text : String}
    {cells slots : List (List Char)} {unions : List String}
    (htext : text.toList = Text.unlines
      (tableLines names cellType cells (unions.map (externLine names)) slots))
    (hlines : ∀ line ∈ tableLines names cellType cells (unions.map (externLine names)) slots,
      '\n' ∉ line) (hcells : ∀ line ∈ cells, Indented line)
    {r : List ℕ × List (ℕ × String)} {found : List JumpSlot}
    (hr : ∀ rest, readBlock? (readWords? 0) ([], []) (cells ++ "\x7d;".toList :: rest) = some r)
    (hfound : ∀ rest,
      readBlock? (names.readSlots? 0) [] (slots ++ "\x7d;".toList :: rest) = some found) :
    names.readTable? text = some ⟨r.1, r.2, unions, found⟩ := by
  have hbody : ∀ line ∈ cells, (line != "#ifdef TYPEDESC_MESSAGING".toList) = true := by
    intro line hline
    rw [bne_iff_ne]
    rintro rfl
    simpa using (hcells _ hline).2
  have hexterns : ∀ line ∈ unions.map (externLine names), "();".toList.isSuffixOf line = true := by
    simp [externLine, List.isSuffixOf]
  rw [readTable?, htext, Text.splitAt_unlines hlines]
  simp only [tableLines, cons_append, append_assoc]
  rw [dropWhile_cons_of_pos (by decide),
    dropWhile_cons_of_pos (by simp [List.isPrefixOf, toString_text]),
    dropWhile_cons_of_pos (by decide),
    dropWhile_cons_of_neg (by simp [List.isPrefixOf, toString_text]), tail_cons,
    hr, dropWhile_append_of_pos hbody,
    dropWhile_cons_of_pos (by decide), dropWhile_cons_of_pos (by decide),
    dropWhile_cons_of_neg (by decide), tail_cons,
    takeWhile_append_of_pos hexterns, dropWhile_append_of_pos hexterns,
    takeWhile_cons_of_neg (by simp [List.isSuffixOf, List.isPrefixOf, toString_text]),
    dropWhile_cons_of_neg (by simp [List.isSuffixOf, List.isPrefixOf, toString_text]),
    tail_cons, hfound, append_nil, readDeclared?_lines]
  rfl

variable {lead header : String} {table : DescriptorTable}

/-- **A table is read from its source**, if its starts stand in order and its slots at their
indices. -/
theorem readTable?_toC (hwords : table.packed = .ok words)
    (hnames : ∀ p ∈ table.starts, Unbroken p.2)
    (hsorted : table.starts.Pairwise fun p q => p.1 < q.1)
    (hstarts : ∀ p ∈ table.starts, p.1 < table.cells.length)
    (hindex : ∀ (j : ℕ) slot, table.jumpSlots[j]? = some slot → slot.index = j)
    (hunions : ∀ slot ∈ table.jumpSlots, Unbroken slot.union)
    (hlead : Unbroken lead) (hheader : Unbroken header) :
    ∃ text, table.toC (.make lead header) = .ok text ∧
      (make lead header).readTable? text =
        some ⟨words, table.starts, table.jumpSlots.map (·.union), table.jumpSlots⟩ := by
  have hcount : table.cells.length = words.length := by simp [(DescriptorTable.packFrom_ok hwords).1]
  have hsnd : (table.cells.zip words).map (·.2) = words := map_snd_zip hcount.ge
  have hstarts' : ∀ p ∈ table.starts, 0 ≤ p.1 ∧ p.1 < 0 + (table.cells.zip words).length :=
    fun p hp => ⟨Nat.zero_le _, by simpa [hcount] using hstarts p hp⟩
  obtain ⟨lines, hjoin, hlines, hread⟩ := carries_cellLines hnames hsorted hstarts'
  obtain ⟨cells, hcells, hindented, hcells'⟩ := exists_block hjoin hlines hread rfl (by decide)
    fun hnone => by
      rw [hsnd, Prod.mk.injEq] at hnone
      rw [hnone.1, zip_nil_right]
      rfl
  have hjoin' : (String.join (table.jumpSlots.map fun s =>
      s!"    {(make lead header).converter s.union}, /* {s.index} */\n")).toList =
        Text.unlines (table.jumpSlots.map (slotLine (.make lead header))) := by
    simp [String.toList_join, Text.unlines, flatMap_map, slotLine, converter, toString_text]
  obtain ⟨slots, hslots, hindented', hslots'⟩ := exists_block hjoin' (fun line hline => by
      obtain ⟨slot, hslot, rfl⟩ := List.mem_map.mp hline
      exact indented_slotLine hlead (hunions slot hslot))
    (readSlots?_lines (i := 0) (.make lead header) (by simpa using hindex)) rfl (readSlots?_zero _)
    (by rintro h; rw [h]; rfl)
  have hexterns : (String.join (table.jumpSlots.map fun s =>
      s!"extern int {(make lead header).converter s.union}();\n")).toList =
        Text.unlines ((table.jumpSlots.map (·.union)).map (externLine (.make lead header))) := by
    simp [String.toList_join, Text.unlines, flatMap_map, externLine, converter, toString_text]
  have hunions' : ∀ union ∈ table.jumpSlots.map (·.union), Unbroken union := by simpa using hunions
  have hbroken := unbroken_tableLines hlead hheader table.target hindented hindented' hunions'
  rw [DescriptorTable.toC, hwords]
  refine ⟨_, rfl, (readTable?_tableLines ?_ hbroken hindented hcells' hslots').trans (by rw [hsnd])⟩
  simp only [String.toList_append, hcells, hslots, hexterns]
  simp [tableLines, Text.unlines, toString_text]

/-- **The C source carries the table.** Every table that a compilation returns can be written, under
every lead and header name without line breaks, and gives when it is read again its packed words,
one for each cell, the names in front of those words at which nodes start, and one converter for
each slot of the jump table, at its index. -/
theorem readTable?_toC_compile {source : String} {names : Names} {keys : KeyList}
    {options : Options} {eval : Evaluator} {stopAfter : Stage} {c : Compilation}
    (h : (compile source names keys options eval stopAfter).result = .ok c)
    (ht : c.table = some table) (hlead : Unbroken lead) (hheader : Unbroken header) :
    ∃ words text, table.packed = .ok words ∧ words.length = table.cells.length ∧
      table.toC (.make lead header) = .ok text ∧
      (make lead header).readTable? text =
        some ⟨words, table.starts, table.jumpSlots.map (·.union), table.jumpSlots⟩ := by
  obtain ⟨order, d, s, s₁, s₂, -, hp⟩ := exists_passage h ht
  obtain ⟨words, hwords⟩ := hp.emits.packed
  have hunbroken {id : NodeId} (hid : id ∈ order) : Unbroken (s₁.spelled id) := by
    have htitled := hp.prepared.titled
    rw [hp.assigned] at htitled
    obtain ⟨name, hname⟩ := Option.isSome_iff_exists.mp (hp.emits.laidOut.laid.named id hid)
    rw [Session.spelled, hname]
    exact Session.spell_of_spelledBy htitled.spelled (.inl hname)
  have hslots : ∀ slot ∈ table.jumpSlots, Unbroken slot.union := by
    intro slot hslot
    rw [hp.emits.jumpSlots, mem_mergeSort] at hslot
    obtain ⟨id, hid, rfl⟩ := List.mem_map.mp hslot
    exact hunbroken (List.mem_filter.mp hid).1
  have hstarts : ∀ p ∈ table.starts, Unbroken p.2 ∧ p.1 < table.cells.length := by
    intro p hp'
    rw [hp.emits.starts] at hp'
    obtain ⟨id, hid, rfl⟩ := List.mem_map.mp hp'
    refine ⟨hunbroken hid, ?_⟩
    rw [hp.emits.cells]
    exact (List.getElem?_eq_some_iff.mp (hp.emits.laidOut.lined.getElem?_offset hid)).1
  have hsorted : table.starts.Pairwise fun p q => p.1 < q.1 := by
    rw [hp.emits.starts]
    exact List.pairwise_map.mpr (Graph.pairwise_offsetIn hp.nodup)
  obtain ⟨text, htext, hread⟩ := readTable?_toC hwords (fun p hp => (hstarts p hp).1) hsorted
    (fun p hp => (hstarts p hp).2) hp.addressable.index hslots hlead hheader
  exact ⟨words, text, hwords, by simp [(DescriptorTable.packFrom_ok hwords).1], htext, hread⟩

/-- A struct around a union, and a lead that is not plain. -/
theorem readTable?_toC_compile_union :
    let key := KeyList.makeKey {} .struct "s" 1
    let run := compile "union u { int i; char c; }; struct s { union u a; int b; };" key.2 ⟨[key.1]⟩
      { target := .bits32 } (fun _ => .error .noCompiler) .emit
    let names := CNames.make "*/ 0x1u, /*" "\"t.h"
    ∃ c table words text, run.result = .ok c ∧ c.table = some table ∧ table.packed = .ok words ∧
      table.toC names = .ok text ∧ names.readTable? text =
        some ⟨words, [(0, "u_0"), (2, "u_1"), (4, "u"), (5, "s")], ["u"], [⟨0, "u"⟩]⟩ := by
  intro key run names
  have hrun : run.table?.map (fun t => (t.starts, t.jumpSlots)) =
      some ([(0, "u_0"), (2, "u_1"), (4, "u"), (5, "s")], [⟨0, "u"⟩]) := by decide +kernel
  obtain ⟨table, htable, heq⟩ := Option.map_eq_some_iff.mp hrun
  obtain ⟨c, hrun, htable⟩ := Run.exists_of_table? htable
  obtain ⟨hstarts, hslots⟩ := Prod.mk.inj heq
  obtain ⟨words, text, hwords, -, htext, hread⟩ := readTable?_toC_compile hrun htable
    (show Unbroken "*/ 0x1u, /*" by unfold Unbroken; decide)
    (show Unbroken "\"t.h" by unfold Unbroken; decide)
  rw [hstarts, hslots] at hread
  exact ⟨c, table, words, text, hrun, htable, hwords, htext, hread⟩

end TypeLayout
