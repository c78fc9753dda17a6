import Mathlib
import TypeLayout.Graph

/-!
# The graph seen through its nodes

Every change of a graph is a `Graph.modify` or a `Graph.add`, and every question about
a graph goes through `Graph.node`. What the first does to the last is said beside the
definitions; this file says the same for the second, so that no later proof looks at the
array underneath.

A number that has not been handed out stands for an incomplete node without content.
That convention is what makes "defined" imply "in range".
-/

namespace TypeLayout.Graph

variable (g : Graph) (id j : NodeId) (f : Node → Node) (n : Node) {e : Element} {g' : Graph}

/-! ### Reading a graph with one more node -/

@[simp] theorem size_add : (g.add n).size = g.size + 1 := by
  simp [add, size]

@[simp] theorem target_add : (g.add n).target = g.target := rfl

variable {g id j}

theorem node_add_self : (g.add n).node g.size = n := by
  simp [node, add, size, Array.getD_eq_getD_getElem?]

theorem node_add_of_ne (h : j ≠ g.size) : (g.add n).node j = g.node j := by
  have hne : j ≠ g.nodes.size := h
  simp only [node, add, Array.getD_eq_getD_getElem?, Array.getElem?_push, if_neg hne]

theorem node_add_of_lt (h : j < g.size) : (g.add n).node j = g.node j :=
  node_add_of_ne n (Nat.ne_of_lt h)

theorem modify_add_self : (g.add n).modify g.size f = g.add (f n) := by
  have hnodes : (g.nodes.push n).modify g.nodes.size f = g.nodes.push (f n) := by
    apply Array.ext_getElem?
    intro i
    rw [Array.getElem?_modify, Array.getElem?_push, Array.getElem?_push]
    rcases eq_or_ne i g.nodes.size with rfl | hne
    · simp
    · simp [hne, hne.symm]
  simp only [modify, add, size, hnodes]

theorem modify_add_of_lt (h : id < g.size) : (g.add n).modify id f = (g.modify id f).add n := by
  have hne : id ≠ g.nodes.size := Nat.ne_of_lt h
  have hnodes : (g.nodes.push n).modify id f = (g.nodes.modify id f).push n := by
    apply Array.ext_getElem?
    intro i
    rw [Array.getElem?_modify, Array.getElem?_push, Array.getElem?_push, Array.getElem?_modify,
      Array.size_modify]
    rcases eq_or_ne i g.nodes.size with rfl | hi
    · simp [hne]
    · simp [hi]
  simp only [modify, add, hnodes]

theorem lt_size_of_isDefined (h : (g.node id).isDefined = true) : id < g.size := by
  by_contra hge
  rw [node_of_le (Nat.le_of_not_lt hge)] at h
  simp [Node.isDefined, default] at h

/-! ### Elements -/

/-- The size and the alignment of an element depend on the target and, for a link, on
the two numbers of the node it leads to. -/
theorem elementSize_congr {g : Graph} (ht : g'.target = g.target)
    (hl : ∀ t, e.link? = some t → (g'.node t).length = (g.node t).length) :
    g'.elementSize e = g.elementSize e := by
  unfold elementSize
  split
  · rename_i t he
    exact hl t he
  · rw [ht]

theorem elementAlign_congr {g : Graph} (ht : g'.target = g.target)
    (ha : ∀ t, e.link? = some t → (g'.node t).align = (g.node t).align) :
    g'.elementAlign e = g.elementAlign e := by
  unfold elementAlign
  split
  · rename_i t he
    exact ha t he
  · rw [ht]

end TypeLayout.Graph
