import FuzzyInference.Name

/-!
# Indexes

What is kept for each of finitely many labels.  An index has no order of its
own: all that can be asked is what it holds for a label, and how much in all.
-/

namespace FuzzyInference

structure Index (β : Type) where
  entries : List (Label × β)
  distinct : (entries.map Prod.fst).Nodup

namespace Index

variable {β : Type}

def empty : Index β := ⟨[], List.nodup_nil⟩

def get? (index : Index β) (label : Label) : Option β :=
  (index.entries.find? fun e => e.1 = label).map Prod.snd

def contains (index : Index β) (label : Label) : Bool := (index.get? label).isSome

def labels (index : Index β) : List Label := index.entries.map Prod.fst

def size (index : Index β) : Nat := index.entries.length

def erase (index : Index β) (label : Label) : Index β :=
  { entries := index.entries.filter fun e => e.1 ≠ label
    distinct := index.distinct.sublist ((List.filter_sublist).map _) }

def insert (index : Index β) (label : Label) (b : β) : Index β :=
  { entries := (label, b) :: (index.erase label).entries
    distinct := by
      refine List.nodup_cons.2 ⟨?_, (index.erase label).distinct⟩
      simp [erase] }

@[simp] theorem get?_empty (l : Label) : (empty : Index β).get? l = none := rfl

theorem get?_erase (index : Index β) (label l : Label) :
    (index.erase label).get? l = if l = label then none else index.get? l := by
  by_cases hl : l = label
  · simp [get?, erase, hl]
  · have hfind : (fun e : Label × β => decide (decide (e.1 ≠ label) = true ∧
        decide (e.1 = l) = true)) = fun e => decide (e.1 = l) := by
      funext e
      by_cases he : e.1 = l <;> simp [he, hl]
    rw [get?, erase, List.find?_filter, hfind, if_neg hl, get?]

theorem get?_insert (index : Index β) (label : Label) (b : β) (l : Label) :
    (index.insert label b).get? l = if l = label then some b else index.get? l := by
  by_cases hl : l = label
  · simp [get?, insert, hl]
  · have hne : label ≠ l := fun h => hl h.symm
    have hrest := index.get?_erase label l
    rw [if_neg hl, get?] at hrest
    simp [get?, insert, hne, hl, hrest]

theorem mem_labels {index : Index β} {l : Label} : l ∈ index.labels ↔ index.contains l = true := by
  simp [labels, contains, get?]

end Index

end FuzzyInference
