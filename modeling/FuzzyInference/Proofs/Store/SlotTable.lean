import FuzzyInference.Slots
import Mathlib.Data.List.Nodup

/-!
# Tables of slots keep the laws

A key of a table of slots carries how many values its slot had lost when it was
given.  That number only grows, so a slot that is used again is used under
another key.
-/

namespace FuzzyInference.SlotTable

variable {ν : Type} {slot : Slot ν} {rest slots : List (Slot ν)} {v : ν} {i n : Nat}
  {k l : SlotKey}

@[simp] theorem find?_nil : find? ([] : List (Slot ν)) k = none := rfl

theorem find?_cons_zero :
    find? (slot :: rest) ⟨0, n⟩ = if slot.lost = n then slot.value? else none := rfl

theorem find?_cons_succ : find? (slot :: rest) ⟨i + 1, n⟩ = find? rest ⟨i, n⟩ := rfl

@[simp] theorem given_nil : ¬ Given ([] : List (Slot ν)) k := by simp [Given]

theorem given_cons_zero : Given (slot :: rest) ⟨0, n⟩ ↔
    n < slot.lost ∨ (slot.lost = n ∧ slot.isVacant = false) := by simp [Given]

theorem given_cons_succ : Given (slot :: rest) ⟨i + 1, n⟩ ↔ Given rest ⟨i, n⟩ := by simp [Given]

theorem key_eq_iff : (⟨i, n⟩ : SlotKey) = k ↔ i = k.index ∧ n = k.lost := by
  cases k
  simp

theorem given_of_find? (h : find? slots k = some v) : Given slots k := by
  unfold find? at h
  cases hslot : slots[k.index]? with
  | none => simp [hslot] at h
  | some slot =>
      by_cases hlost : slot.lost = k.lost
      · simp only [hslot, Option.bind_eq_bind, Option.bind_some, hlost, ↓reduceIte] at h
        exact ⟨slot, hslot, .inr ⟨hlost, by simp [Slot.isVacant, h]⟩⟩
      · simp [hslot, hlost] at h

/-! ## Putting in -/

theorem find?_insertInto (slots : List (Slot ν)) (v : ν) (k : SlotKey) :
    find? (insertInto v slots).2 k =
      if k = (insertInto v slots).1 then some v else find? slots k := by
  obtain ⟨i, n⟩ := k
  induction slots generalizing i with
  | nil =>
      cases i with
      | zero => by_cases hn : n = 0 <;> simp [insertInto, find?_cons_zero, hn, Ne.symm]
      | succ i => simp [insertInto, find?_cons_succ]
  | cons slot rest ih =>
      by_cases hvacant : slot.isVacant = true
      · have hnone : slot.value? = none := by simpa [Slot.isVacant] using hvacant
        cases i with
        | zero =>
            by_cases hn : slot.lost = n
            · simp [insertInto, hvacant, find?_cons_zero, hn]
            · have hn' : n ≠ slot.lost := fun h => hn h.symm
              simp [insertInto, hvacant, find?_cons_zero, hn, hn']
        | succ i => simp [insertInto, hvacant, find?_cons_succ]
      · cases i with
        | zero => simp [insertInto, hvacant, find?_cons_zero]
        | succ i => simp [insertInto, hvacant, find?_cons_succ, ih, key_eq_iff]

theorem not_given_insertInto (slots : List (Slot ν)) (v : ν) :
    ¬ Given slots (insertInto v slots).1 := by
  induction slots with
  | nil => exact given_nil
  | cons slot rest ih =>
      by_cases hvacant : slot.isVacant = true
      · simp [insertInto, hvacant, given_cons_zero]
      · simpa [insertInto, hvacant, given_cons_succ] using ih

theorem given_insertInto (slots : List (Slot ν)) (v : ν) (k : SlotKey) :
    Given (insertInto v slots).2 k ↔ k = (insertInto v slots).1 ∨ Given slots k := by
  obtain ⟨i, n⟩ := k
  induction slots generalizing i with
  | nil =>
      cases i with
      | zero => simp [insertInto, given_cons_zero, Slot.isVacant, eq_comm]
      | succ i => simp [insertInto, given_cons_succ]
  | cons slot rest ih =>
      by_cases hvacant : slot.isVacant = true
      · have hfilled : (⟨slot.lost, some v⟩ : Slot ν).isVacant = false := rfl
        cases i with
        | zero =>
            simp only [insertInto, hvacant, ↓reduceIte, given_cons_zero, hfilled, key_eq_iff]
            simp only [true_and, and_true, Bool.true_eq_false, and_false, or_false]
            rw [or_comm, eq_comm]
        | succ i => simp [insertInto, hvacant, given_cons_succ]
      · cases i with
        | zero => simp [insertInto, hvacant, given_cons_zero]
        | succ i => simp [insertInto, hvacant, given_cons_succ, ih, key_eq_iff]

/-! ## Taking out -/

@[simp] theorem isVacant_vacate : slot.vacate.isVacant = true := by
  unfold Slot.vacate
  split_ifs with hvacant
  · exact hvacant
  · rfl

/-- What a slot has given stays given when it is vacated. -/
theorem given_vacate :
    (n < slot.vacate.lost ∨ (slot.vacate.lost = n ∧ slot.vacate.isVacant = false)) ↔
      n < slot.lost ∨ (slot.lost = n ∧ slot.isVacant = false) := by
  by_cases hvacant : slot.isVacant = true
  · simp [Slot.vacate, hvacant]
  · have hlost : slot.vacate.lost = slot.lost + 1 := by simp [Slot.vacate, hvacant]
    have hheld : slot.isVacant = false := by simpa using hvacant
    simp only [hlost, isVacant_vacate, hheld, Bool.true_eq_false, and_false, or_false, and_true]
    omega

theorem given_modify_vacate (slots : List (Slot ν)) (i : Nat) (k : SlotKey) :
    Given (slots.modify i Slot.vacate) k ↔ Given slots k := by
  unfold Given
  rw [List.getElem?_modify]
  by_cases hi : i = k.index
  · cases hslot : slots[k.index]? with
    | none => simp
    | some slot => simpa [hi] using given_vacate
  · simp [hi]

theorem given_map_vacate (slots : List (Slot ν)) (k : SlotKey) :
    Given (slots.map Slot.vacate) k ↔ Given slots k := by
  unfold Given
  rw [List.getElem?_map]
  cases slots[k.index]? with
  | none => simp
  | some slot => simpa using given_vacate

theorem find?_map_vacate (slots : List (Slot ν)) (k : SlotKey) :
    find? (slots.map Slot.vacate) k = none := by
  unfold find?
  rw [List.getElem?_map]
  cases slots[k.index]? with
  | none => rfl
  | some slot =>
      have hvacant : slot.vacate.value? = none := by simpa [Slot.isVacant] using isVacant_vacate
      simp [hvacant]

theorem find?_modify_vacate (h : find? slots k = some v) :
    find? (slots.modify k.index Slot.vacate) l = if l = k then none else find? slots l := by
  unfold find? at h ⊢
  rw [List.getElem?_modify]
  by_cases hindex : k.index = l.index
  · cases hslot : slots[k.index]? with
    | none => simp [hslot] at h
    | some slot =>
        by_cases hlost : slot.lost = k.lost
        · have hvacant : slot.vacate.value? = none := by
            simpa [Slot.isVacant] using isVacant_vacate
          -- another key of this slot finds nothing, because the slot has lost another number
          have hother : l ≠ k → slot.lost ≠ l.lost := by
            rintro hne heq
            exact hne (by cases k; cases l; simp_all)
          by_cases hl : l = k
          · simp [hl, hslot, hvacant]
          · simp [← hindex, hslot, hvacant, hl, hother hl]
        · simp [hslot, hlost] at h
  · have hne : l ≠ k := fun heq => hindex (heq ▸ rfl)
    simp [hindex, hne]

/-! ## Counting -/

def keys : List (Slot ν) → List SlotKey
  | [] => []
  | slot :: rest =>
      let later := (keys rest).map fun k => ⟨k.index + 1, k.lost⟩
      if slot.isVacant then later else ⟨0, slot.lost⟩ :: later

theorem mem_keys (slots : List (Slot ν)) (k : SlotKey) :
    k ∈ keys slots ↔ (find? slots k).isSome = true := by
  obtain ⟨i, n⟩ := k
  induction slots generalizing i with
  | nil => simp [keys, find?_nil]
  | cons slot rest ih =>
      have hlater (j : Nat) : (⟨j + 1, n⟩ : SlotKey) ∈ (keys rest).map
          (fun k => (⟨k.index + 1, k.lost⟩ : SlotKey)) ↔ (⟨j, n⟩ : SlotKey) ∈ keys rest := by
        simp only [List.mem_map, SlotKey.mk.injEq, Nat.add_right_cancel_iff]
        exact ⟨fun ⟨k, hk, hi, hn⟩ => by cases k; simp_all, fun h => ⟨_, h, rfl, rfl⟩⟩
      have hfirst : (⟨0, n⟩ : SlotKey) ∉ (keys rest).map
          (fun k => (⟨k.index + 1, k.lost⟩ : SlotKey)) := by simp
      by_cases hvacant : slot.isVacant = true
      · have hnone : slot.value? = none := by simpa [Slot.isVacant] using hvacant
        cases i with
        | zero => simp [keys, hvacant, hnone, find?_cons_zero]
        | succ i => simp only [keys, hvacant, ↓reduceIte, hlater, ih, find?_cons_succ]
      · obtain ⟨v, hv⟩ : ∃ v, slot.value? = some v := by
          simpa [Slot.isVacant, Option.isNone_iff_eq_none, Option.ne_none_iff_exists'] using hvacant
        cases i with
        | zero => by_cases hn : n = slot.lost <;> simp [keys, hvacant, hv, find?_cons_zero, hn, eq_comm]
        | succ i => simp [keys, hvacant, find?_cons_succ, ih, hlater]

theorem nodup_keys (slots : List (Slot ν)) : (keys slots).Nodup := by
  induction slots with
  | nil => exact List.nodup_nil
  | cons slot rest ih =>
      have hlater : ((keys rest).map fun k => (⟨k.index + 1, k.lost⟩ : SlotKey)).Nodup := by
        refine ih.map fun k l h => ?_
        cases k
        cases l
        simpa using h
      unfold keys
      split_ifs with hvacant
      · exact hlater
      · exact List.nodup_cons.2 ⟨by simp, hlater⟩

theorem length_keys (slots : List (Slot ν)) :
    (keys slots).length = slots.countP fun slot => !slot.isVacant := by
  induction slots with
  | nil => rfl
  | cons slot rest ih => by_cases hvacant : slot.isVacant = true <;> simp [keys, hvacant, ih]

/-! ## The laws -/

instance : LawfulSlots (SlotTable ν) where
  get?_empty _ := rfl
  get?_insert table v k := find?_insertInto table.slots v k
  fst_remove table k := by
    cases h : find? table.slots k <;> simp [Slots.remove, Slots.get?, h]
  get?_remove table k l := by
    cases h : find? table.slots k with
    | none =>
        by_cases hl : l = k
        · simp [Slots.remove, Slots.get?, h, hl]
        · simp [Slots.remove, Slots.get?, h, hl]
    | some v =>
        simp only [Slots.remove, Slots.get?, h]
        exact find?_modify_vacate h
  get?_clear table k := find?_map_vacate table.slots k
  size_eq table ks hnodup hmem := by
    have hperm : (keys table.slots).Perm ks :=
      (List.perm_ext_iff_of_nodup (nodup_keys _) hnodup).2 fun k =>
        (mem_keys table.slots k).trans (hmem k).symm
    exact (length_keys table.slots).symm.trans hperm.length_eq
  not_issued_insert table v := not_given_insertInto table.slots v
  issued_insert table v k := given_insertInto table.slots v k
  issued_remove table k l := by
    cases h : find? table.slots k with
    | none => simp [Slots.remove, h]
    | some v =>
        simp only [Slots.remove, Slots.Issued, h]
        exact given_modify_vacate table.slots k.index l
  issued_clear table k := given_map_vacate table.slots k
  issued_of_get? h := given_of_find? h

end FuzzyInference.SlotTable
