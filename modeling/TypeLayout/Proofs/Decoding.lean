import TypeLayout.Proofs.Passes
import TypeLayout.Proofs.Refusals

/-!
# Packed tables can be read

Packing forgets what kind a cell is of: a size, an offset, a count with a letter and a slot with
an alignment all become one number. A converter tells them apart by where they stand. It knows
where records start, that a record begins with a size, that fields follow, and that the letter of
a field says whether a reference comes next (`decode`).

This is enough to get every cell back (`decode_compile`). The letter and the alignment stay
below the shifted part because letters are ASCII and alignments are at most eight, and the case
of a letter is free to mark the last field because all letters are small ones. Where records
start comes from the order in which nodes are written.
-/

namespace TypeLayout

open List

/-! ### Reading words -/

/-- What the next word stands for, if no record starts there. -/
inductive Awaited where
  | field
  | structRef
  | unionRef
deriving DecidableEq, Repr

namespace Awaited

/-- What comes after a field with a letter. -/
def after (code : Char) : Awaited :=
  if code = 's' then structRef else if code = 'u' then unionRef else field

/-- Reads a word: a count above a letter, whose case marks the last field of a record, an
offset, or a slot above an alignment. -/
def read (word : ℕ) : Awaited → Cell
  | field =>
    let letter := Char.ofNat (word % 256)
    .field (word >>> 8) letter.toLower letter.isUpper
  | structRef => .structRef word
  | unionRef => .unionRef (word >>> 8) (word % 256)

end Awaited

/-- What comes after a cell of a record. -/
def Cell.next : Cell → Awaited
  | field _ code _ => .after code
  | _ => .field

/-- Reads words that stand from an index on. -/
def decodeFrom (starts : List ℕ) : ℕ → Awaited → List ℕ → List Cell
  | _, _, [] => []
  | i, awaited, word :: words =>
    let cell := if i ∈ starts then .length word else awaited.read word
    cell :: decodeFrom starts (i + 1) cell.next words

/-- **Reads a packed table**, given where its records start. -/
def decode (words starts : List ℕ) : List Cell := decodeFrom starts 0 .field words

/-! ### Words from cells -/

namespace Cell

/-- The packed form of a cell. -/
def word (c : Cell) : ℕ := c.pack?.getD 0

variable {n low w : ℕ}

/-- The two parts of a packed value can be taken apart. -/
theorem parts_of_shift? (hlow : low < 256) (h : (shift? n).map (· ||| low) = some w) :
    w >>> 8 = n ∧ w % 256 = low := by
  obtain ⟨v, hv, rfl⟩ := Option.map_eq_some_iff.mp h
  unfold shift? at hv
  split at hv
  · rw [← Option.some.inj hv, shiftLeft_or hlow, Nat.shiftRight_eq_div_pow]
    omega
  · cases hv

/-- The letter of a field, in the case that it is packed in, shows the field's own letter and
whether it is the last one. -/
theorem letter_spec (e : Element) (last : Bool) :
    let letter := if last then e.code.toUpper else e.code
    letter.toNat < 256 ∧ Char.ofNat letter.toNat = letter ∧ letter.toLower = e.code ∧
      letter.isUpper = last := by
  have hcode : e.code ∈ ['p', 'f', 's', 'u', 'e', 'c', 'h', 'i', 'l', 'r', 'd'] := by
    cases e <;> simp [Element.code]
  generalize e.code = code at hcode
  fin_cases hcode <;> cases last <;> decide

theorem read_field {e : Element} {last : Bool} (h : (field n e.code last).pack? = some w) :
    Awaited.field.read w = field n e.code last := by
  obtain ⟨hbyte, hchar, hlower, hupper⟩ := letter_spec e last
  obtain ⟨hcount, hletter⟩ := parts_of_shift? hbyte h
  simp only [Awaited.read, hcount, hletter, hchar, hlower, hupper]

theorem read_unionRef (hlow : low < 256) (h : (unionRef n low).pack? = some w) :
    Awaited.unionRef.read w = unionRef n low := by
  obtain ⟨hindex, halign⟩ := parts_of_shift? hlow h
  rw [Awaited.read, hindex, halign]

end Cell

/-- **A table that can be packed is packed cell by cell**, and every word fits. -/
theorem DescriptorTable.packFrom_ok {target : Target} {i : ℕ} {cells : List Cell} {words : List ℕ}
    (h : packFrom target i cells = .ok words) :
    words = cells.map Cell.word ∧
      ∀ c ∈ cells, c.pack? = some c.word ∧ c.word ≤ target.cellMax := by
  induction cells generalizing i words with
  | nil =>
    obtain rfl := Except.ok.inj h
    simp
  | cons c cells ih =>
    rw [packFrom] at h
    split at h
    · cases h
    rename_i w hcell
    split at h
    · cases h
    rename_i ws hrest
    obtain rfl := Except.ok.inj h
    obtain ⟨rfl, hall⟩ := ih hrest
    have hw : c.pack? = some w ∧ w ≤ target.cellMax := by
      unfold packCell at hcell
      dsimp only at hcell
      split at hcell
      · rename_i v hv
        split at hcell
        · rename_i hle
          obtain rfl := Except.ok.inj hcell
          exact ⟨hv, hle⟩
        · cases hcell
      · cases hcell
    have hword : c.word = w := by rw [Cell.word, hw.1, Option.getD_some]
    refine ⟨by rw [map_cons, hword], fun x hx => ?_⟩
    rcases List.mem_cons.mp hx with rfl | hx
    · rw [hword]
      exact hw
    · exact hall x hx

/-! ### Reading records -/

section Records

variable {starts : List ℕ} {i : ℕ} {g : Graph} {p : Places}

theorem decodeFrom_start (hi : i ∈ starts) (awaited : Awaited) (n : ℕ) (words : List ℕ) :
    decodeFrom starts i awaited ((Cell.length n).word :: words) =
      .length n :: decodeFrom starts (i + 1) .field words := by
  rw [decodeFrom, if_pos hi]
  rfl

/-- A word inside a record is read as the cell that was awaited. -/
theorem decodeFrom_inside (hi : i ∉ starts) (awaited : Awaited) {c : Cell}
    (hc : awaited.read c.word = c) (words : List ℕ) :
    decodeFrom starts i awaited (c.word :: words) =
      c :: decodeFrom starts (i + 1) c.next words := by
  rw [decodeFrom, if_neg hi, hc]

/-- What follows the field of an item is read as its reference, if it is a link. -/
theorem decodeFrom_linkCells (halign : ∀ id, (g.node id).align < 256) (e : Element)
    (hpack : ∀ c ∈ g.linkCells p e, c.pack? = some c.word)
    (hin : ∀ j, i ≤ j → j < i + (g.linkCells p e).length → j ∉ starts) (words : List ℕ) :
    decodeFrom starts i (.after e.code) ((g.linkCells p e).map Cell.word ++ words) =
      g.linkCells p e ++ decodeFrom starts (i + (g.linkCells p e).length) .field words := by
  cases e with
  | structLink t =>
    have hi := hin i (le_refl i) (by simp [Graph.linkCells])
    exact decodeFrom_inside hi .structRef rfl words
  | unionLink u =>
    have hi := hin i (le_refl i) (by simp [Graph.linkCells])
    have hread := Cell.read_unionRef (halign u)
      (hpack (.unionRef (p.jump u) (g.node u).align) (by simp [Graph.linkCells]))
    exact decodeFrom_inside hi .unionRef hread words
  | _ => rfl

theorem decodeFrom_fieldCells (halign : ∀ id, (g.node id).align < 256) (items : List Item)
    (hpack : ∀ c ∈ g.fieldCells p items, c.pack? = some c.word)
    (hin : ∀ j, i ≤ j → j < i + (g.fieldCells p items).length → j ∉ starts) (words : List ℕ) :
    decodeFrom starts i .field ((g.fieldCells p items).map Cell.word ++ words) =
      g.fieldCells p items ++
        decodeFrom starts (i + (g.fieldCells p items).length) .field words := by
  induction items generalizing i with
  | nil => rfl
  | cons item items ih =>
    have hcells : g.fieldCells p (item :: items) =
        .field item.count item.kind.code items.isEmpty ::
          (g.linkCells p item.kind ++ g.fieldCells p items) := rfl
    generalize hfield : Cell.field item.count item.kind.code items.isEmpty = c at hcells
    have hnext : c.next = .after item.kind.code := by rw [← hfield]; rfl
    rw [hcells] at hpack hin ⊢
    simp only [length_cons, length_append] at hin ⊢
    have hread : Awaited.field.read c.word = c := by
      have hc := hpack c mem_cons_self
      rw [← hfield] at hc ⊢
      exact Cell.read_field hc
    rw [map_cons, cons_append,
      decodeFrom_inside (hin i (le_refl i) (by omega)) .field hread, hnext, map_append,
      append_assoc, decodeFrom_linkCells halign _
        (fun x hx => hpack x (mem_cons_of_mem _ (mem_append_left _ hx)))
        (fun j hj hlt => hin j (by omega) (by omega)),
      ih (fun x hx => hpack x (mem_cons_of_mem _ (mem_append_right _ hx)))
        (fun j hj hlt => hin j (by omega) (by omega))]
    rw [cons_append, append_assoc]
    congr 4
    omega

/-- **A record is read as it was written**, whatever follows it. -/
theorem decodeFrom_record (halign : ∀ id, (g.node id).align < 256) (id : NodeId)
    (hpack : ∀ c ∈ g.record p id, c.pack? = some c.word) (hstart : i ∈ starts)
    (hin : ∀ j, i < j → j < i + (g.record p id).length → j ∉ starts) (words : List ℕ) :
    decodeFrom starts i .field ((g.record p id).map Cell.word ++ words) =
      g.record p id ++ decodeFrom starts (i + (g.record p id).length) .field words := by
  unfold Graph.record at *
  rw [map_cons, cons_append, decodeFrom_start hstart, cons_append]
  congr 1
  cases hu : (g.node id).isUnion with
  | true => rfl
  | false =>
    simp only [hu, Bool.false_eq_true, if_false, length_cons] at hpack hin ⊢
    rw [decodeFrom_fieldCells halign _ (fun c hc => hpack c (mem_cons_of_mem _ hc))
      (fun j hj hlt => hin j (by omega) (by omega))]
    congr 2
    omega

/-- **Records one after the other are read as they were written**, if exactly their first words
are marked as starts. -/
theorem decodeFrom_records (halign : ∀ id, (g.node id).align < 256) (order : List NodeId)
    (hpack : ∀ c ∈ order.flatMap (g.record p), c.pack? = some c.word)
    (hstarts : ∀ j, i ≤ j → (j ∈ starts ↔
      ∃ l id r, order = l ++ id :: r ∧ j = i + (l.flatMap (g.record p)).length)) :
    decodeFrom starts i .field ((order.flatMap (g.record p)).map Cell.word) =
      order.flatMap (g.record p) := by
  induction order generalizing i with
  | nil => rfl
  | cons x order ih =>
    have hin : ∀ j, i < j → j < i + (g.record p x).length → j ∉ starts := by
      -- Behind the first word the next record that starts is the one after this one.
      intro j hj hlt hmem
      obtain ⟨l, id, r, horder, rfl⟩ := (hstarts j hj.le).mp hmem
      rcases List.cons_eq_append_iff.mp horder with ⟨rfl, -⟩ | ⟨l, rfl, -⟩
      · simp at hj
      · simp only [flatMap_cons, length_append] at hlt
        omega
    have hrest : ∀ j, i + (g.record p x).length ≤ j → (j ∈ starts ↔ ∃ l id r,
        order = l ++ id :: r ∧
          j = i + (g.record p x).length + (l.flatMap (g.record p)).length) := by
      intro j hj
      have hpos : 0 < (g.record p x).length := by simp [Graph.record]
      rw [hstarts j (by omega)]
      constructor
      · rintro ⟨l, id, r, horder, rfl⟩
        rcases List.cons_eq_append_iff.mp horder with ⟨rfl, -⟩ | ⟨l, rfl, hrest⟩
        · simp only [flatMap_nil, length_nil] at hj
          omega
        · refine ⟨l, id, r, hrest, ?_⟩
          rw [flatMap_cons, length_append, Nat.add_assoc]
      · rintro ⟨l, id, r, rfl, rfl⟩
        refine ⟨x :: l, id, r, rfl, ?_⟩
        rw [flatMap_cons, length_append, Nat.add_assoc]
    have hstart : i ∈ starts := (hstarts i (le_refl i)).mpr ⟨[], x, order, rfl, rfl⟩
    rw [flatMap_cons] at hpack ⊢
    rw [map_append,
      decodeFrom_record halign x (fun c hc => hpack c (mem_append_left _ hc)) hstart hin,
      ih (fun c hc => hpack c (mem_append_right _ hc)) hrest]

end Records

/-! ### Tables -/

namespace Session.Emits

variable {g : Graph} {order : List NodeId} {s : Session} {d : Draft} {table : DescriptorTable}

/-- The starts of a table are where its records begin. -/
theorem mem_starts_iff (h : s.Emits g order d table) (j : ℕ) :
    j ∈ table.starts.map (·.1) ↔ ∃ l id r, order = l ++ id :: r ∧
      j = (l.flatMap (g.record (g.placesIn order))).length := by
  rw [h.starts, map_map, mem_map]
  constructor
  · rintro ⟨id, hid, rfl⟩
    obtain ⟨l, r, hl⟩ := append_of_mem hid
    exact ⟨l, id, r, hl, h.laidOut.lined.offset l id r hl⟩
  · rintro ⟨l, id, r, hl, rfl⟩
    exact ⟨id, by rw [hl]; simp, h.laidOut.lined.offset l id r hl⟩

/-- **A table can be read back from its words.** -/
theorem decode_packed (h : s.Emits g order d table) :
    ∃ words, table.packed = .ok words ∧ (∀ w ∈ words, w ≤ table.target.cellMax) ∧
      decode words (table.starts.map (·.1)) = table.cells := by
  obtain ⟨words, hwords⟩ := h.packed
  obtain ⟨rfl, hpack⟩ := DescriptorTable.packFrom_ok hwords
  refine ⟨_, hwords, fun w hw => ?_, ?_⟩
  · obtain ⟨c, hc, rfl⟩ := List.mem_map.mp hw
    exact (hpack c hc).2
  · rw [h.cells] at hpack ⊢
    refine decodeFrom_records h.laidOut.serves.settled.align_lt order (fun c hc => (hpack c hc).1)
      fun j _ => ?_
    simp only [h.mem_starts_iff, Nat.zero_add]

end Session.Emits

/-- **Packed tables can be read.** Every table that a compilation returns can be packed for the
target that it was made for, and its words, with the offsets at which its records start, give
all its cells back. -/
theorem decode_compile {source : String} {names : Names} {keys : KeyList} {options : Options}
    {eval : Evaluator} {stopAfter : Stage} {c : Compilation} {table : DescriptorTable}
    (h : (compile source names keys options eval stopAfter).result = .ok c)
    (ht : c.table = some table) :
    table.target = options.target ∧ ∃ words, table.packed = .ok words ∧
      (∀ w ∈ words, w ≤ options.target.cellMax) ∧
      decode words (table.starts.map (·.1)) = table.cells := by
  obtain ⟨order, d, s, s₁, s₂, -, hp⟩ := exists_passage h ht
  have htarget : table.target = options.target := hp.emits.target.trans hp.prepared.target
  refine ⟨htarget, ?_⟩
  rw [← htarget]
  exact hp.emits.decode_packed

/-- A struct with an array of structs and a union, for the narrow target. -/
theorem decode_compile_nested :
    let key := KeyList.makeKey {} .struct "s" 1
    let run := compile ("union u { int i; char c[3]; }; struct p { char x; union u v; };" ++
      "struct s { struct p a[2]; double b; };") key.2 ⟨[key.1]⟩
      { target := .bits32, optimize := false } (fun _ => .error .noCompiler) .emit
    ∃ c table, run.result = .ok c ∧ c.table = some table ∧
      table.cells = [.length 4, .field 1 'i' true, .length 3, .field 3 'c' true, .length 4,
        .length 8, .field 1 'c' false, .field 1 'u' true, .unionRef 0 4,
        .length 24, .field 2 's' false, .structRef 5, .field 1 'd' true] ∧
      ∃ words, table.packed = .ok words ∧ (∀ w ∈ words, w ≤ 0xffffffff) ∧
        decode words (table.starts.map (·.1)) = table.cells := by
  intro key run
  have hcells : run.table?.map (·.cells) = some [.length 4, .field 1 'i' true, .length 3,
      .field 3 'c' true, .length 4, .length 8, .field 1 'c' false, .field 1 'u' true, .unionRef 0 4,
      .length 24, .field 2 's' false, .structRef 5, .field 1 'd' true] := by decide +kernel
  obtain ⟨table, htable, hcells⟩ := Option.map_eq_some_iff.mp hcells
  obtain ⟨c, hrun, htable⟩ := Run.exists_of_table? htable
  exact ⟨c, table, hrun, htable, hcells, (decode_compile hrun htable).2⟩

end TypeLayout
