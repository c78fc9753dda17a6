import TypeLayout.Proofs.Passes
import TypeLayout.Proofs.Refusals

/-!
# Exported constants are exact

A table comes with names for the offsets at which reading may begin. First come the names that
were asked for, in the order in which they were asked for, whether they stand for the same node
or one of them stands inside another. Then come the members of the unions that are needed. The
members are collected while nodes are written, each when its union is, and so in an order of
their own; still each of them is there once (`DescriptorTable.Exports`).

That no member is there twice is not a property of the traversal, which would not notice a
member of two unions. It holds because a table with two constants of one name is refused.
-/

namespace TypeLayout

open List

/-! ### What the check of the constants leaves -/

/-- **Constants that are not refused have different names.** -/
theorem nodup_of_checkSymbols {symbols : List TableSymbol}
    (h : checkSymbols [] symbols = .ok ()) : (symbols.map (·.name)).Nodup := by
  obtain ⟨-, hrefused⟩ := checkSymbols_of_offset_lt (offset_lt_of_checkSymbols h) []
  by_contra hnot
  obtain ⟨name, herror⟩ := hrefused fun hboth => hnot hboth.1
  rw [h] at herror
  cases herror

/-- The mark can be taken off an offset below it. -/
theorem ldiff_offsetMark {o : ℕ} (h : o < offsetMark) :
    Nat.ldiff (offsetMark ||| o) offsetMark = o := by
  have hmark : offsetMark = 2 ^ 31 := rfl
  rw [hmark] at h ⊢
  refine Nat.eq_of_testBit_eq fun k => ?_
  rw [Nat.testBit_ldiff, Nat.testBit_or, Nat.testBit_two_pow]
  rcases eq_or_ne 31 k with rfl | hk
  · simp [Nat.testBit_lt_two_pow h]
  · simp [hk]

/-- The offsets of nodes grow along the order in which they are written. -/
theorem Graph.pairwise_offsetIn {g : Graph} {order : List NodeId} (hn : order.Nodup) :
    order.Pairwise fun a b => g.offsetIn order a < g.offsetIn order b := by
  refine (Graph.pairwise_mem_before hn).imp_of_mem fun {a b} _ hb hab => ?_
  have hle := Graph.sum_before_le hn hb hab fun id => (g.node id).cellCount
  have hpos : 0 < (g.node a).cellCount := by
    unfold Node.cellCount
    split <;> omega
  exact lt_of_lt_of_le (Nat.lt_add_of_pos_right hpos) hle

namespace Session.Emits

variable {g : Graph} {order : List NodeId} {s : Session} {d : Draft} {table : DescriptorTable}
  (h : s.Emits g order d table)

include h

theorem nodup_names : (table.symbols.map (·.name)).Nodup := nodup_of_checkSymbols h.checked

/-- **The members of the unions that are written have different names**, so none of them is
there twice. -/
theorem nodup_spelled_members :
    ((order.flatMap fun id => (g.node id).members).map s.spelled).Nodup := by
  have hnames := h.nodup_names
  rw [h.symbols, map_append, memberSymbols, map_map] at hnames
  have hmembers := h.written.members
  rw [append_nil] at hmembers
  exact (hmembers.map s.spelled).nodup_iff.mp (List.nodup_append.mp hnames).2.1

/-- A constant stands for the start of a record. -/
theorem symbol_offset {x : TableSymbol} (hx : x ∈ table.symbols) :
    x.offset ∈ table.starts.map (·.1) ∧ ∃ n, table.cells[x.offset]? = some (.length n) := by
  rw [h.symbols] at hx
  obtain ⟨id, hid, ho⟩ := h.laidOut.exists_of_mem_symbols h.written hx
  rw [← ho, h.starts, h.cells, map_map]
  exact ⟨List.mem_map.mpr ⟨id, hid, rfl⟩, _, h.laidOut.lined.getElem?_offset hid⟩

end Session.Emits

/-! ### Constants of a session -/

/-- A constant is that of a key: it has its bare name and the offset of its node. -/
structure TableSymbol.OfKey (s : Session) (key : Key) (x : TableSymbol) : Prop where
  kind : x.kind = .key
  name : x.name = s.names.spell key.name
  offset : ∃ id, key.node = some id ∧ (s.graph.node id).offset = some x.offset

/-- A constant is that of a member of a union: it has the name that the member was given, and
its offset. -/
structure TableSymbol.OfMember (s : Session) (m : NodeId) (x : TableSymbol) : Prop where
  kind : x.kind = .unionMember
  name : ∃ name, (s.graph.node m).name = some name ∧ x.name = s.names.spell name
  offset : (s.graph.node m).offset = some x.offset

/-- **The constants of a table are exact**, for the session that it was written from. -/
structure DescriptorTable.Exports (t : DescriptorTable) (s : Session) : Prop where
  /-- First the keys, in their order, and then the members of the unions that are needed, each
  of them once. -/
  symbols : ∃ keySymbols members memberSymbols, t.symbols = keySymbols ++ memberSymbols ∧
    Forall₂ (TableSymbol.OfKey s) s.keys.keys keySymbols ∧
    Forall₂ (TableSymbol.OfMember s) members memberSymbols ∧ members.Nodup ∧
    ∀ m, m ∈ members ↔ ∃ u, s.graph.Needs s.requested u ∧ (s.graph.node u).isUnion = true ∧
      m ∈ (s.graph.node u).members
  /-- No two of them have one name. -/
  names : (t.symbols.map (·.name)).Nodup
  /-- They stand for the starts of records, -/
  starting : ∀ x ∈ t.symbols, x.offset ∈ t.starts.map (·.1) ∧
    ∃ n, t.cells[x.offset]? = some (.length n)
  /-- and leave the mark free. -/
  unmarked : ∀ x ∈ t.symbols, x.offset < 0x80000000 ∧
    Nat.ldiff (offsetMark ||| x.offset) offsetMark = x.offset
  /-- The starts grow, and are those of the nodes that are needed, each of them once. -/
  starts : t.starts.Pairwise (fun a b => a.1 < b.1) ∧
    ∃ order : List NodeId, order.Nodup ∧ (∀ id, id ∈ order ↔ s.graph.Needs s.requested id) ∧
      Forall₂ (fun id start => (s.graph.node id).offset = some start.1) order t.starts

namespace Session.Passage

variable {names : Names} {keys : KeyList} {target : Target} {order : List NodeId} {d : Draft}
  {table : DescriptorTable} {s s₁ s₂ : Session}
  (h : Passage names keys target order d table s s₁ s₂)

include h

/-- Every key has a node, which has a place. -/
theorem exists_root {key : Key} (hkey : key ∈ s₂.keys.keys) :
    ∃ id ∈ order, key.node = some id := by
  rw [h.keys.2, h.keys.1] at hkey
  obtain ⟨id, hid⟩ : ∃ id, key.node = some id := by
    obtain ⟨n, hn, heq⟩ := getElem_of_mem hkey
    have hold : n < keys.keys.length := by
      rw [h.prepared.keys.length_eq]
      exact hn
    obtain ⟨id, hid⟩ := h.prepared.keys.get hold hn
    exact ⟨id, by rw [← heq]; exact congrArg Key.node hid⟩
  have hroot : id ∈ s₁.requested := by
    rw [requested, h.keys.1]
    exact List.mem_filterMap.mpr ⟨key, hkey, hid⟩
  exact ⟨id, h.emits.laidOut.walk.mem_of_mem_todo hroot, hid⟩

/-- **The constants of the keys**, in the order of the keys. -/
theorem ofKey : Forall₂ (TableSymbol.OfKey s₂) s₂.keys.keys
    (s₁.keySymbols s.graph order) := by
  have hall (l : List Key) (hl : ∀ key ∈ l, key ∈ s₂.keys.keys) :
      Forall₂ (TableSymbol.OfKey s₂) l
        ((l.filterMap fun key => key.node.map fun id => (id, s₁.names.spell key.name)).map
          fun p => ⟨p.2, s.graph.offsetIn order p.1, .key⟩) := by
    induction l with
    | nil => exact .nil
    | cons key l ih =>
      obtain ⟨id, hid, hnode⟩ := h.exists_root (hl key mem_cons_self)
      rw [filterMap_cons_some (by rw [hnode, Option.map_some]), map_cons]
      refine .cons ⟨rfl, ?_, id, hnode, h.offset hid⟩
        (ih fun key hkey => hl key (mem_cons_of_mem _ hkey))
      rw [h.names]
  have hkeys := hall s₂.keys.keys fun _ hkey => hkey
  rw [h.keys.2] at hkeys ⊢
  exact hkeys

/-- **The constants of the members**, in the order in which they were written. -/
theorem ofMember : Forall₂ (TableSymbol.OfMember s₂) d.members
    (s₁.memberSymbols s.graph order d.members) := by
  rw [memberSymbols, forall₂_map_right_iff, forall₂_same]
  intro m hm
  have hmem := h.emits.laidOut.mem_of_mem_members h.emits.written hm
  exact ⟨rfl, h.exists_name hmem, h.offset hmem⟩

/-- The members that were recorded are those of the unions that are needed. -/
theorem mem_members_iff (m : NodeId) : m ∈ d.members ↔ ∃ u, s₂.graph.Needs s₂.requested u ∧
    (s₂.graph.node u).isUnion = true ∧ m ∈ (s₂.graph.node u).members := by
  have hmembers := h.emits.written.members
  rw [append_nil] at hmembers
  rw [hmembers.mem_iff, mem_flatMap]
  constructor
  · rintro ⟨u, hu, hm⟩
    refine ⟨u, (h.mem_order_iff u).mp hu, ?_, (h.shape u).members.symm ▸ hm⟩
    rw [(h.shape u).isUnion]
    by_contra hnot
    rw [(h.prepared.serves.settled.nodes u).other_members
      (by simpa [Node.isUnion] using hnot)] at hm
    cases hm
  · rintro ⟨u, hu, -, hm⟩
    exact ⟨u, (h.mem_order_iff u).mpr hu, (h.shape u).members ▸ hm⟩

/-- **A table that is written has exact constants.** -/
theorem exports : table.Exports s₂ where
  symbols := by
    refine ⟨_, d.members, _, h.emits.symbols, h.ofKey, h.ofMember, ?_, h.mem_members_iff⟩
    have hmembers := h.emits.written.members
    rw [append_nil] at hmembers
    exact hmembers.nodup_iff.mpr (h.emits.nodup_spelled_members.of_map s₁.spelled)
  names := h.emits.nodup_names
  starting _ hx := h.emits.symbol_offset hx
  unmarked x hx := by
    have hlt := offset_lt_of_checkSymbols h.emits.checked x hx
    exact ⟨hlt, ldiff_offsetMark hlt⟩
  starts := by
    rw [h.emits.starts]
    refine ⟨List.pairwise_map.mpr (Graph.pairwise_offsetIn h.nodup), order, h.nodup,
      h.mem_order_iff, ?_⟩
    rw [forall₂_map_right_iff, forall₂_same]
    exact fun id hid => h.offset hid

end Session.Passage

/-- **Exported constants are exact.** With the table, a compilation returns a session in which
each key has the node that its name leads to, and the constants of the table are exactly those
of the keys and of the members of the unions that they need. -/
theorem exports_compile {source : String} {names : Names} {keys : KeyList} {options : Options}
    {eval : Evaluator} {stopAfter : Stage} {c : Compilation} {table : DescriptorTable}
    (h : (compile source names keys options eval stopAfter).result = .ok c)
    (ht : c.table = some table) :
    ∃ s, c.session = some s ∧ names.Extends s.names ∧
      Forall₂ (fun key key' => ∃ id, s.resolve? key = some id ∧
        key' = { key with node := some id }) keys.keys s.keys.keys ∧ table.Exports s := by
  obtain ⟨order, d, s, s₁, s₂, hsession, hp⟩ := exists_passage h ht
  refine ⟨s₂, hsession, hp.names ▸ hp.prepared.names.trans hp.persists.names, ?_, hp.exports⟩
  have hkeys := hp.prepared.keys
  rw [← hp.keys.1, ← hp.keys.2] at hkeys
  have hboth := ((forall₂_and_left (p := (· ∈ s₂.keys.keys)) _ _).mpr
    ⟨fun _ hkey => hkey, hkeys.flip⟩).flip
  refine hboth.imp ?_
  rintro key key' ⟨hmem, id, rfl⟩
  have hfound := hp.resolve?_eq hmem rfl
  exact ⟨id, hfound, rfl⟩

/-- Three keys, two of which have one node, a struct that becomes its union and stands inside
the third. -/
theorem exports_compile_aliases :
    let s := KeyList.makeKey {} .struct "s" 1
    let w := KeyList.makeKey s.2 .struct "w" 2
    let t := KeyList.makeKey w.2 .plain "t" 3
    let run := compile ("struct w { union { int i; char c[3]; } v; }; typedef struct w t;" ++
      "struct s { struct w a; t b[2]; };") t.2 ⟨[s.1, w.1, t.1]⟩ {}
      (fun _ => .error .noCompiler) .emit
    ∃ c table session, run.result = .ok c ∧ c.table = some table ∧ c.session = some session ∧
      table.symbols = [⟨"s", 5, .key⟩, ⟨"w", 4, .key⟩, ⟨"t", 4, .key⟩, ⟨"w_0", 0, .unionMember⟩,
        ⟨"w_1", 2, .unionMember⟩] ∧ table.Exports session := by
  intro s w t run
  have hsymbols : run.table?.map (·.symbols) = some [⟨"s", 5, .key⟩, ⟨"w", 4, .key⟩,
      ⟨"t", 4, .key⟩, ⟨"w_0", 0, .unionMember⟩, ⟨"w_1", 2, .unionMember⟩] := by decide +kernel
  obtain ⟨table, htable, hsymbols⟩ := Option.map_eq_some_iff.mp hsymbols
  obtain ⟨c, hrun, htable⟩ := Run.exists_of_table? htable
  obtain ⟨session, hsession, -, -, hexports⟩ := exports_compile hrun htable
  exact ⟨c, table, session, hrun, htable, hsession, hsymbols, hexports⟩

end TypeLayout
