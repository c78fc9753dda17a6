import Mathlib
import TypeLayout.Graph

/-!
# Runs of equal elements

An item that follows one of its own kind is merged into it by adding the counts. There
are two cases, and `pushItem_of_merges` and `pushItem_of_not_merges` say what the list
of items is in each.
-/

namespace TypeLayout.Graph

variable {items : List Item} {item : Item}

theorem pushItem_of_merges (h : mergesInto items item = true) :
    ∃ init last, items = init ++ [last] ∧ last.kind = item.kind ∧
      pushItem items item = init ++ [⟨wrap (last.count + item.count), item.kind⟩] := by
  rcases List.eq_nil_or_concat items with rfl | ⟨init, last, rfl⟩
  · simp [mergesInto] at h
  · have hk : last.kind = item.kind := by simpa [mergesInto] using h
    refine ⟨init, last, List.concat_eq_append, hk, ?_⟩
    simp [pushItem, hk]

theorem pushItem_of_not_merges (h : mergesInto items item = false) :
    pushItem items item = items ++ [item] := by
  rcases List.eq_nil_or_concat items with rfl | ⟨init, last, rfl⟩
  · rfl
  · have hk : last.kind ≠ item.kind := by simpa [mergesInto] using h
    simp [pushItem, hk]

theorem pushItem_ne_nil (items : List Item) (item : Item) : pushItem items item ≠ [] := by
  cases h : mergesInto items item with
  | true =>
    obtain ⟨init, last, -, -, heq⟩ := pushItem_of_merges h
    simp [heq]
  | false => simp [pushItem_of_not_merges h]

/-- A run has the kind of the items it was made of. -/
theorem kind_of_mem_pushItem {x : Item} (hx : x ∈ pushItem items item) :
    (∃ y ∈ items, y.kind = x.kind) ∨ x.kind = item.kind := by
  cases h : mergesInto items item with
  | true =>
    obtain ⟨init, last, hi, hk, heq⟩ := pushItem_of_merges h
    rw [heq, List.mem_append, List.mem_singleton] at hx
    rcases hx with hx | rfl
    · exact Or.inl ⟨x, by simp [hi, hx], rfl⟩
    · exact Or.inr rfl
  | false =>
    rw [pushItem_of_not_merges h, List.mem_append, List.mem_singleton] at hx
    rcases hx with hx | rfl
    · exact Or.inl ⟨x, hx, rfl⟩
    · exact Or.inr rfl

/-- A merged item adds nothing to the number of items with some property of their
kind; any other one does if it has the property. -/
theorem countP_pushItem (p : Element → Bool) (items : List Item) (item : Item) :
    (pushItem items item).countP (p ·.kind) =
      items.countP (p ·.kind) + if mergesInto items item || !p item.kind then 0 else 1 := by
  cases h : mergesInto items item with
  | true =>
    obtain ⟨init, last, rfl, hk, heq⟩ := pushItem_of_merges h
    simp [heq, hk]
  | false =>
    rw [pushItem_of_not_merges h, List.countP_append]
    cases hp : p item.kind <;> simp [hp]

end TypeLayout.Graph
