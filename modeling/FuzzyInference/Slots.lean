/-!
# Slots

Storage that names each value put into it by a key of its own choice.  A key
finds the value it was given to or nothing: it is never given again, even where
the place of a removed value is used for another.
-/

namespace FuzzyInference

class Slots (σ : Type) (κ ν : outParam Type) where
  empty : σ
  insert : ν → σ → κ × σ
  get? : σ → κ → Option ν
  /-- The value under a key, and the storage without it. -/
  remove : κ → σ → Option ν × σ
  clear : σ → σ
  size : σ → Nat
  /-- The key has been given to a value, which may have been removed since. -/
  Issued : σ → κ → Prop

/-- What is relied on of storage by keys. -/
class LawfulSlots (σ : Type) {κ ν : Type} [DecidableEq κ] [Slots σ κ ν] : Prop where
  get?_empty (k : κ) : Slots.get? (Slots.empty : σ) k = none
  get?_insert (s : σ) (v : ν) (k : κ) : Slots.get? (Slots.insert v s).2 k =
    if k = (Slots.insert v s).1 then some v else Slots.get? s k
  fst_remove (s : σ) (k : κ) : (Slots.remove k s).1 = Slots.get? s k
  get?_remove (s : σ) (k l : κ) :
    Slots.get? (Slots.remove k s).2 l = if l = k then none else Slots.get? s l
  get?_clear (s : σ) (k : κ) : Slots.get? (Slots.clear s) k = none
  size_eq (s : σ) (keys : List κ) : keys.Nodup →
    (∀ k, k ∈ keys ↔ (Slots.get? s k).isSome = true) → Slots.size s = keys.length
  not_issued_insert (s : σ) (v : ν) : ¬ Slots.Issued s (Slots.insert v s).1
  issued_insert (s : σ) (v : ν) (k : κ) :
    Slots.Issued (Slots.insert v s).2 k ↔ k = (Slots.insert v s).1 ∨ Slots.Issued s k
  issued_remove (s : σ) (k l : κ) : Slots.Issued (Slots.remove k s).2 l ↔ Slots.Issued s l
  issued_clear (s : σ) (k : κ) : Slots.Issued (Slots.clear s) k ↔ Slots.Issued s k
  issued_of_get? {s : σ} {k : κ} {v : ν} : Slots.get? s k = some v → Slots.Issued s k

/-! ## Tables of slots -/

/-- A place for one value at a time, with the number of those it has lost. -/
structure Slot (ν : Type) where
  lost : Nat
  value? : Option ν

namespace Slot

variable {ν : Type}

def isVacant (slot : Slot ν) : Bool := slot.value?.isNone

def vacate (slot : Slot ν) : Slot ν := if slot.isVacant then slot else ⟨slot.lost + 1, none⟩

end Slot

/-- A place, and how many values it had lost when the key was given. -/
structure SlotKey where
  index : Nat
  lost : Nat
deriving DecidableEq, Repr

structure SlotTable (ν : Type) where
  slots : List (Slot ν)

namespace SlotTable

variable {ν : Type}

/-- The first vacant slot takes the value.  Where there is none, a new slot at
the end does. -/
def insertInto (v : ν) : List (Slot ν) → SlotKey × List (Slot ν)
  | [] => (⟨0, 0⟩, [⟨0, some v⟩])
  | slot :: rest =>
      if slot.isVacant then (⟨0, slot.lost⟩, ⟨slot.lost, some v⟩ :: rest)
      else
        let (key, rest) := insertInto v rest
        (⟨key.index + 1, key.lost⟩, slot :: rest)

def find? (slots : List (Slot ν)) (key : SlotKey) : Option ν := do
  let slot ← slots[key.index]?
  if slot.lost = key.lost then slot.value? else none

/-- A key has been given if its slot has lost the value, or holds it. -/
def Given (slots : List (Slot ν)) (key : SlotKey) : Prop :=
  ∃ slot ∈ slots[key.index]?,
    key.lost < slot.lost ∨ (slot.lost = key.lost ∧ slot.isVacant = false)

instance : Slots (SlotTable ν) SlotKey ν where
  empty := ⟨[]⟩
  insert v table :=
    let (key, slots) := insertInto v table.slots
    (key, ⟨slots⟩)
  get? table key := find? table.slots key
  remove key table :=
    match find? table.slots key with
    | some v => (some v, ⟨table.slots.modify key.index Slot.vacate⟩)
    | none => (none, table)
  clear table := ⟨table.slots.map Slot.vacate⟩
  size table := table.slots.countP fun slot => !slot.isVacant
  Issued table key := Given table.slots key

end SlotTable

end FuzzyInference
