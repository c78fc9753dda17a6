import TypeLayout.Graph
import TypeLayout.Notice

/-!
# Merging structs into their only user

A struct that a single field embeds needs no table of its own: its items can stand
in place of that field. `inlineFrom` replaces the fields of one container, from an
index on, and looks at the first of the new items again, so that chains are
flattened. A replacement is only made if it leaves every byte where it was: the
offsets of all items and the size of the container are computed anew and compared.
Padding at the end of the inner struct is what usually forbids it.

A struct whose only field is one union becomes that union (`adopt`).

Each round of `inlineFrom` moves to the next item of an unchanged list, or it takes the
items of another node away and leaves fewer in their place; this is why it ends, on every
graph whatever its links are.
-/

namespace TypeLayout

/-- How often the optimizer did something. -/
structure InliningStats where
  /-- Structs merged into their only container. -/
  inlined : Nat := 0
  /-- Containers that became the union they held. -/
  adopted : Nat := 0
  /-- Structs left alone because merging them would move a field. -/
  rejected : Nat := 0
deriving DecidableEq, Inhabited, Repr

namespace Graph

/-- How many items a node has that is left, unless it is the given one. -/
def load (g : Graph) (container id : NodeId) : Nat :=
  if id = container ∨ (g.node id).removed then 0 else (g.node id).items.length

/-- How many items the nodes have that are left, one node not counted. -/
def outside (g : Graph) (container : NodeId) : Nat :=
  g.size.fold (fun id _ total => total + g.load container id) 0

/-- The struct that could replace an item of a container. -/
def inlinable? (g : Graph) (container : NodeId) (item : Item) : Option NodeId :=
  match item with
  | ⟨1, .structLink target⟩ =>
    let t := g.node target
    if target ≠ container ∧ t.kind = .struct ∧ t.refs ≤ 1 ∧ ¬ t.isKey ∧ ¬ t.removed ∧
        t.isDefined ∧ t.items ≠ [] then
      some target
    else
      none
  | _ => none

/-- Merges runs of items of one kind. The second part lists, for every link that was
merged into its neighbour, the node it leads to. -/
def coalesce (items : List Item) : List Item × List NodeId :=
  items.foldl
    (fun (merged, released) item =>
      (pushItem merged item,
        if mergesInto merged item then released ++ item.kind.link?.toList else released))
    ([], [])

/-- The items of a container with item `k` replaced by other items. -/
def spliced (items inner : List Item) (k : Nat) : List Item :=
  items.take k ++ inner ++ items.drop (k + 1)

/-- Where the items of a container start when item `k` is replaced by items that stay
where they were. -/
def keptOffsets (before inner : List Nat) (k : Nat) : List Nat :=
  before.take k ++ inner.map (fun o => wrap (before.getD k 0 + o)) ++ before.drop (k + 1)

/-- Whether replacing item `k` of a container by the items of a struct leaves every
byte where it was. -/
def keepsLayout (g : Graph) (container : NodeId) (k : Nat) (target : NodeId) : Bool :=
  let c := g.node container
  let t := g.node target
  let after := g.layout (spliced c.items t.items k)
  after.offsets == keptOffsets (g.layout c.items).offsets (g.layout t.items).offsets k
    && alignUp after.stop c.align == c.length

/-- One reference fewer to a node. -/
def release (g : Graph) (id : NodeId) : Graph :=
  g.modify id fun n => { n with refs := n.refs - 1 }

/-- Replaces item `k` of a container by the items of a struct, which is removed. -/
def splice (g : Graph) (container : NodeId) (k : Nat) (target : NodeId) : Graph :=
  let (items, released) :=
    coalesce (spliced (g.node container).items (g.node target).items k)
  let g := released.foldl release g
  let g := g.modify container fun n => { n with items }
  g.modify target fun n => { n with removed := true }

/-! ### A splice takes items away -/

theorem length_pushItem (items : List Item) (item : Item) :
    (pushItem items item).length ≤ items.length + 1 := by
  unfold pushItem
  split
  · split
    · simp only [List.length_append, List.length_dropLast, List.length_singleton]
      omega
    · simp
  · simp

theorem length_coalesce (items : List Item) : (coalesce items).1.length ≤ items.length := by
  have hfold (rest : List Item) (start : List Item × List NodeId) :
      (rest.foldl (fun (merged, released) item => (pushItem merged item,
        if mergesInto merged item then released ++ item.kind.link?.toList else released))
        start).1.length ≤ start.1.length + rest.length := by
    induction rest generalizing start with
    | nil => simp
    | cons item rest ih =>
      refine Nat.le_trans (ih _) ?_
      have := length_pushItem start.1 item
      simp only [List.length_cons]
      omega
  simpa [coalesce] using hfold items ([], [])

theorem fold_add_of_eq {f f' : Nat → Nat} {t : Nat} (h : ∀ i, i ≠ t → f' i = f i) (n : Nat) :
    n.fold (fun i _ total => total + f' i) 0 + (if t < n then f t else 0) =
      n.fold (fun i _ total => total + f i) 0 + (if t < n then f' t else 0) := by
  induction n with
  | zero => rfl
  | succ n ih =>
    simp only [Nat.fold_succ]
    by_cases hn : n = t
    · subst hn
      rw [if_neg (Nat.lt_irrefl n), if_neg (Nat.lt_irrefl n)] at ih
      rw [if_pos (Nat.lt_succ_self n), if_pos (Nat.lt_succ_self n)]
      omega
    · have hlt : t < n + 1 ↔ t < n := by omega
      simp only [hlt, h n hn]
      omega

theorem node_release_field {α : Type} (field : Node → α)
    (hf : ∀ n : Node, field { n with refs := n.refs - 1 } = field n) (g : Graph) (ids : List NodeId)
    (id : NodeId) : field ((ids.foldl release g).node id) = field (g.node id) := by
  induction ids generalizing g with
  | nil => rfl
  | cons i ids ih => rw [List.foldl_cons, ih, release, node_modify_field _ field hf]

theorem size_releases (g : Graph) (ids : List NodeId) : (ids.foldl release g).size = g.size := by
  induction ids generalizing g with
  | nil => rfl
  | cons i ids ih => rw [List.foldl_cons, ih, release, size_modify]

theorem inlinable?_eq_some {g : Graph} {container target : NodeId} {item : Item}
    (h : g.inlinable? container item = some target) :
    target ≠ container ∧ (g.node target).removed = false ∧ target < g.size := by
  unfold inlinable? at h
  split at h
  · simp only at h
    split at h
    · rename_i ht
      obtain rfl := Option.some.inj h
      refine ⟨ht.1, by simpa using ht.2.2.2.2.1, ?_⟩
      apply Nat.lt_of_not_le
      intro hs
      apply ht.2.2.2.2.2.2
      rw [node_of_le hs]
      rfl
    · simp at h
  · simp at h

section Splice

variable {g : Graph} {container target : NodeId} {k : Nat}

theorem splice_eq (g : Graph) (container : NodeId) (k : Nat) (target : NodeId) :
    g.splice container k target =
      (((coalesce (spliced (g.node container).items (g.node target).items k)).2.foldl
        release g).modify container fun n =>
          { n with
            items := (coalesce (spliced (g.node container).items (g.node target).items k)).1 }).modify
        target fun n => { n with removed := true } := rfl

theorem items_splice_of_ne {id : NodeId} (hid : id ≠ container) :
    ((g.splice container k target).node id).items = (g.node id).items := by
  rw [splice_eq, node_modify_field (fun n => { n with removed := true }) Node.items fun _ => rfl,
    node_modify_of_ne _ (Ne.symm hid), node_release_field Node.items fun _ => rfl]

theorem items_splice_self (hc : container < g.size) :
    ((g.splice container k target).node container).items =
      (coalesce (spliced (g.node container).items (g.node target).items k)).1 := by
  rw [splice_eq, node_modify_field (fun n => { n with removed := true }) Node.items fun _ => rfl,
    node_modify_self _ (by rw [size_releases]; exact hc)]

theorem removed_splice_of_ne {id : NodeId} (hid : id ≠ target) :
    ((g.splice container k target).node id).removed = (g.node id).removed := by
  rw [splice_eq, node_modify_of_ne _ (Ne.symm hid), node_modify]
  split
  · exact node_release_field Node.removed (fun _ => rfl) g _ id
  · exact node_release_field Node.removed (fun _ => rfl) g _ id

theorem removed_splice_self (ht : target < g.size) :
    ((g.splice container k target).node target).removed = true := by
  rw [splice_eq, node_modify_self _ (by rw [size_modify, size_releases]; exact ht)]

theorem outside_splice {item : Item} (h : g.inlinable? container item = some target) :
    (g.splice container k target).outside container + (g.node target).items.length =
      g.outside container := by
  obtain ⟨hne, hr, hs⟩ := inlinable?_eq_some h
  have hsize : (g.splice container k target).size = g.size := by
    rw [splice_eq, size_modify, size_modify, size_releases]
  have hload : ∀ id, id ≠ target →
      (g.splice container k target).load container id = g.load container id := by
    intro id hid
    by_cases hc : id = container
    · simp [load, hc]
    · simp only [load, hc, removed_splice_of_ne hid, items_splice_of_ne hc]
  have hsum := fold_add_of_eq hload g.size
  unfold outside
  rw [hsize]
  simpa [load, hne, hr, hs, removed_splice_self hs] using hsum

end Splice

/-- The container has fewer items afterwards than it and the struct had before. -/
theorem length_splice {g : Graph} {container : NodeId} (target : NodeId) {k : Nat}
    (hk : k < (g.node container).items.length) :
    ((g.splice container k target).node container).items.length <
      (g.node container).items.length + (g.node target).items.length := by
  have hc : container < g.size := by
    apply Nat.lt_of_not_le
    intro hs
    rw [node_of_le hs] at hk
    simp [default] at hk
  rw [items_splice_self hc]
  refine Nat.lt_of_le_of_lt (length_coalesce _) ?_
  simp only [spliced, List.length_append, List.length_take, List.length_drop]
  omega

end Graph

/-! ### The pass -/

/-- The optimizer at work: the graph so far and what has been done. -/
structure Inlining where
  graph : Graph
  stats : InliningStats := {}
  notices : Array Notice := #[]

namespace Inlining

/-- Merges what can be merged into the items of a container, from item `k` on. -/
def inlineFrom (container : NodeId) (p : Inlining) (k : Nat) : Inlining :=
  match _hi : (p.graph.node container).items[k]? with
  | none => p
  | some item =>
    match _ht : p.graph.inlinable? container item with
    | none => inlineFrom container p (k + 1)
    | some target =>
      if p.graph.keepsLayout container k target then
        -- look at the first of the new items again
        inlineFrom container
          { graph := p.graph.splice container k target
            stats := { p.stats with inlined := p.stats.inlined + 1 }
            notices := p.notices.push (.inlined target container k) } k
      else
        inlineFrom container
          { p with
            stats := { p.stats with rejected := p.stats.rejected + 1 }
            notices := p.notices.push (.wouldMove target container) } (k + 1)
termination_by p.graph.outside container + ((p.graph.node container).items.length - k)
decreasing_by
  all_goals
    have hk : k < (p.graph.node container).items.length := (List.getElem?_eq_some_iff.1 _hi).1
  · omega
  · have hout := Graph.outside_splice (k := k) _ht
    have hlen := Graph.length_splice target hk
    omega
  · omega

/-- The union that a struct can become: its only field, used nowhere else, with the
same size and alignment. -/
def adoptable? (g : Graph) (container : NodeId) : Option NodeId :=
  let c := g.node container
  match c.items with
  | [⟨1, .unionLink union⟩] =>
    let u := g.node union
    if u.refs ≤ 1 ∧ ¬ u.isKey ∧ ¬ u.removed ∧ c.length = u.length ∧ c.align = u.align then
      some union
    else
      none
  | _ => none

/-- Links to a struct become links to a union. -/
def relink (container : NodeId) (item : Item) : Item :=
  if item.kind = .structLink container then { item with kind := .unionLink container } else item

/-- A struct becomes the union that is its only field. -/
def adopt (g : Graph) (container union : NodeId) : Graph :=
  let members := (g.node union).members
  let g := g.modify container fun n => { n with kind := .union, items := [], members }
  let g := g.modify union fun n => { n with removed := true }
  { g with
    nodes := g.nodes.map fun n => { n with items := n.items.map (relink container) } }

/-- Lets a struct become its only field if it can. -/
def adoptUnion (container : NodeId) (p : Inlining) : Inlining :=
  if (p.graph.node container).kind = .struct then
    match adoptable? p.graph container with
    | none => p
    | some union =>
      { graph := adopt p.graph container union
        stats := { p.stats with adopted := p.stats.adopted + 1 }
        notices := p.notices.push (.adopted container union) }
  else
    p

/-- Treats one node. -/
def visit (p : Inlining) (id : NodeId) : Inlining :=
  let n := p.graph.node id
  if n.removed ∨ ¬ n.isDefined then p
  else
    match n.kind with
    | .struct | .unionMember => adoptUnion id (inlineFrom id p 0)
    | _ => p

end Inlining

/-- Merges structs into their only users, over all nodes in order. -/
def Graph.inlineStructs (g : Graph) : Inlining :=
  let p := (List.range g.size).foldl Inlining.visit { graph := g }
  { p with
    notices := p.notices.push (.optimized p.stats.inlined p.stats.adopted p.stats.rejected) }

end TypeLayout
