import Mathlib
import TypeLayout.Table.Converter

/-!
# Registering converters

A registry is filled by calls that name a slot by its index or by its union, in any order, with
repetitions, and with calls among them that are refused. It counts slots by their position in a
list and unions by the first of a name, while a table counts them by the indices in its cells. The
two agree if the slots of the table stand in the order of their indices and no two unions have one
name (`JumpSlot.Addressable`).

Then a registry is a function on slots (`ConverterRegistry.holding`), each call changes this
function at the slot that it addresses and nowhere else, and what a slot holds in the end is said
by the calls that addressed it (`ConverterRegistry.after_holding`).
-/

namespace TypeLayout

open List

/-! ### Calls -/

/-- A call that registers a converter. -/
inductive Registration where
  | byIndex (index : ℕ) (f : UnionConverter)
  | byName (union : String) (f : UnionConverter)

namespace Registration

/-- The converter that is registered. -/
def converter : Registration → UnionConverter
  | byIndex _ f | byName _ f => f

/-- Whether a call is for a slot. -/
def fills (slot : JumpSlot) : Registration → Bool
  | byIndex index _ => index == slot.index
  | byName union _ => union == slot.union

/-- What a call returns. -/
def apply (r : ConverterRegistry) : Registration → Except EmitError ConverterRegistry
  | byIndex index f => r.register index f
  | byName union f => r.registerUnion union f

end Registration

namespace ConverterRegistry

/-- A registry after a call, which is as it was if the call is refused. -/
def call (r : ConverterRegistry) (reg : Registration) : ConverterRegistry :=
  match reg.apply r with
  | .ok r' => r'
  | .error _ => r

/-- A registry after any calls. -/
def after (r : ConverterRegistry) (calls : List Registration) : ConverterRegistry :=
  calls.foldl call r

/-- A registry that holds, for each slot of a table, a given converter or none. -/
def holding (slots : List JumpSlot) (c : JumpSlot → Option UnionConverter) : ConverterRegistry :=
  ⟨slots.map fun slot => (slot.union, c slot)⟩

end ConverterRegistry

/-- **Slots that can be addressed**: they stand in the order of their indices, which count up from
zero, and no two unions have one name. -/
structure JumpSlot.Addressable (slots : List JumpSlot) : Prop where
  index : ∀ (i : ℕ) (slot : JumpSlot), slots[i]? = some slot → slot.index = i
  nodup : (slots.map (·.union)).Nodup

/-- A name belongs to one slot. -/
theorem JumpSlot.Addressable.eq_of_union {slots : List JumpSlot} (h : Addressable slots) {i j : ℕ}
    {a b : JumpSlot} (ha : slots[i]? = some a) (hb : slots[j]? = some b)
    (hab : a.union = b.union) : i = j := by
  have hlt : i < (slots.map (·.union)).length := by
    rw [length_map]
    exact (List.getElem?_eq_some_iff.mp ha).1
  refine (getElem?_inj hlt h.nodup).mp ?_
  rw [getElem?_map, getElem?_map, ha, hb, Option.map_some, Option.map_some, hab]

namespace ConverterRegistry

variable {slots : List JumpSlot} {c c' : JumpSlot → Option UnionConverter} {i : ℕ} {slot : JumpSlot}
  {f : UnionConverter}

theorem holding_congr (h : ∀ slot ∈ slots, c slot = c' slot) :
    holding slots c = holding slots c' := by
  rw [holding, holding, map_congr_left fun slot hslot => by rw [h slot hslot]]

theorem size_holding (slots : List JumpSlot) (c : JumpSlot → Option UnionConverter) :
    (holding slots c).size = slots.length :=
  length_map _

/-- The slots of a table are in order already, and empty in a new registry. -/
theorem ofSlots_eq (h : JumpSlot.Addressable slots) :
    ofSlots slots = holding slots fun _ => none := by
  have hsorted : slots.Pairwise fun a b => decide (a.index ≤ b.index) = true := by
    refine List.pairwise_iff_getElem.mpr fun i j hi hj hij => ?_
    rw [h.index i _ (getElem?_eq_getElem hi), h.index j _ (getElem?_eq_getElem hj)]
    exact decide_eq_true hij.le
  rw [ofSlots, mergeSort_of_pairwise hsorted, holding]

/-! ### One call -/

theorem register_holding (h : JumpSlot.Addressable slots) (hi : i < slots.length) :
    (holding slots c).register i f =
      .ok (holding slots fun slot => if i == slot.index then some f else c slot) := by
  rw [register, if_pos (by rw [size_holding]; exact hi)]
  congr 2
  refine ext_getElem? fun j => ?_
  rw [holding, getElem?_modify, getElem?_map, getElem?_map]
  cases hj : slots[j]? with
  | none => rfl
  | some slot =>
    rw [← h.index j slot hj]
    by_cases heq : i = slot.index
    · simp [heq]
    · simp [heq]

theorem register_holding_error (hi : ¬ i < slots.length) :
    (holding slots c).register i f = .error (.unknownJumpSlot i) := by
  rw [register, if_neg (by rw [size_holding]; exact hi)]

/-- The union of a slot is found at the position of the slot. -/
theorem registerUnion_holding (h : JumpSlot.Addressable slots) (hi : slots[i]? = some slot) :
    (holding slots c).registerUnion slot.union f = (holding slots c).register i f := by
  have hfind : (holding slots c).slots.findIdx? (·.1 == slot.union) = some i := by
    obtain ⟨hlt, hslot⟩ := List.getElem?_eq_some_iff.mp hi
    refine List.findIdx?_eq_some_iff_getElem.mpr ⟨?_, ?_, fun j hj heq => ?_⟩
    · exact (length_map _).symm ▸ hlt
    · simp [holding, hslot]
    · -- An earlier slot of the same name would be the same slot.
      have hsame : slots[j].union = slot.union := by simpa [holding] using heq
      have hij := h.eq_of_union (getElem?_eq_getElem (hj.trans hlt)) hi hsame
      omega
  rw [registerUnion, hfind]

theorem registerUnion_holding_error {union : String} (h : ∀ slot ∈ slots, slot.union ≠ union) :
    (holding slots c).registerUnion union f = .error (.unknownUnion union) := by
  have hfind : (holding slots c).slots.findIdx? (·.1 == union) = none := by
    refine List.findIdx?_eq_none_iff.mpr fun p hp => ?_
    obtain ⟨slot, hslot, rfl⟩ := List.mem_map.mp hp
    exact beq_false_of_ne (h slot hslot)
  rw [registerUnion, hfind]

/-- **One call** fills the slots that it is for, and changes no other; there may be none. -/
theorem call_holding (h : JumpSlot.Addressable slots) (reg : Registration) :
    (holding slots c).call reg =
      holding slots fun slot => if reg.fills slot then some reg.converter else c slot := by
  cases reg with
  | byIndex i f =>
    by_cases hi : i < slots.length
    · rw [call, Registration.apply, register_holding h hi]
      rfl
    · rw [call, Registration.apply, register_holding_error hi]
      refine holding_congr fun slot hslot => ?_
      obtain ⟨j, hj⟩ := getElem?_of_mem hslot
      have hlt := (List.getElem?_eq_some_iff.mp hj).1
      have hne : ¬ i = slot.index := by
        rw [h.index j slot hj]
        omega
      simp [Registration.fills, hne]
  | byName union f =>
    by_cases hex : ∃ slot ∈ slots, slot.union = union
    · obtain ⟨slot, hslot, rfl⟩ := hex
      obtain ⟨j, hj⟩ := getElem?_of_mem hslot
      have hlt := (List.getElem?_eq_some_iff.mp hj).1
      rw [call, Registration.apply, registerUnion_holding h hj, register_holding h hlt]
      -- A slot of this name has this index, and the other way round.
      refine holding_congr fun other hother => ?_
      obtain ⟨k, hk⟩ := getElem?_of_mem hother
      have hiff : j = other.index ↔ slot.union = other.union := by
        rw [h.index k other hk]
        constructor
        · rintro rfl
          rw [Option.some.inj (hj.symm.trans hk)]
        · exact h.eq_of_union hj hk
      simp only [Registration.fills, Registration.converter, beq_iff_eq, hiff]
    · rw [call, Registration.apply,
        registerUnion_holding_error fun slot hslot hname => hex ⟨slot, hslot, hname⟩]
      refine holding_congr fun slot hslot => ?_
      have hne : ¬ union = slot.union := fun hname => hex ⟨slot, hslot, hname.symm⟩
      simp [Registration.fills, hne]

/-! ### Any calls -/

/-- What a slot that held something holds after some calls: the converter of the last one that
was for it. -/
def lastFor (slot : JumpSlot) (c : Option UnionConverter) (calls : List Registration) :
    Option UnionConverter :=
  calls.foldl (fun c reg => if reg.fills slot then some reg.converter else c) c

theorem isNone_lastFor (slot : JumpSlot) (c : Option UnionConverter) (calls : List Registration) :
    (lastFor slot c calls).isNone = (c.isNone && calls.all fun reg => !reg.fills slot) := by
  induction calls generalizing c with
  | nil => simp [lastFor]
  | cons reg calls ih =>
    have hcons : lastFor slot c (reg :: calls) =
        lastFor slot (if reg.fills slot then some reg.converter else c) calls := rfl
    rw [hcons, ih, all_cons]
    cases reg.fills slot <;> simp

/-- **Any calls**: each slot holds what the last call for it registered. -/
theorem after_holding (h : JumpSlot.Addressable slots) (calls : List Registration) :
    (holding slots c).after calls = holding slots fun slot => lastFor slot (c slot) calls := by
  induction calls generalizing c with
  | nil => rfl
  | cons reg calls ih =>
    have hcons : (holding slots c).after (reg :: calls) =
        ((holding slots c).call reg).after calls := rfl
    rw [hcons, call_holding h, ih]
    rfl

theorem unresolved_holding (slots : List JumpSlot) (c : JumpSlot → Option UnionConverter) :
    (holding slots c).unresolved = (slots.filter fun slot => (c slot).isNone).map (·.union) := by
  rw [unresolved, holding, filter_map, map_map]
  rfl

/-- **To register by name is to register by index**, after any calls: it fills the slot of that
name and leaves all others alone. What no call was for is what is unresolved. -/
theorem after_ofSlots (h : JumpSlot.Addressable slots) (calls : List Registration) :
    let r := (ofSlots slots).after calls
    (∀ i slot f, slots[i]? = some slot → r.registerUnion slot.union f = r.register i f ∧
      r.register i f = .ok ⟨r.slots.set i (slot.union, some f)⟩) ∧
    r.unresolved =
      (slots.filter fun slot => calls.all fun reg => !reg.fills slot).map (·.union) := by
  intro r
  have hr : r = holding slots fun slot => lastFor slot none calls := by
    rw [← after_holding h, ← ofSlots_eq h]
  rw [hr]
  refine ⟨fun i slot f hi => ⟨registerUnion_holding h hi, ?_⟩, ?_⟩
  · have hlt := (List.getElem?_eq_some_iff.mp hi).1
    rw [register, if_pos (by rw [size_holding]; exact hlt), set_eq_modify]
    congr 2
    refine ext_getElem? fun j => ?_
    rw [getElem?_modify, getElem?_modify]
    by_cases hij : i = j
    · subst hij
      simp [holding, hi]
    · simp [hij]
  · rw [unresolved_holding]
    simp only [isNone_lastFor, Option.isNone_none, Bool.true_and]

end ConverterRegistry

end TypeLayout
