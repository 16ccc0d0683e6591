import FuzzyInference.Index
import Mathlib.Data.List.Nodup

/-!
# Found by a key

In a list whose elements have keys of their own, the element of a key is the
only one that can be found under it.  An index is as large as any list of the
labels it holds something for.
-/

namespace FuzzyInference

theorem find?_key_eq_some_iff {β γ : Type} [DecidableEq γ] {key : β → γ} {l : List β}
    (hdistinct : (l.map key).Nodup) {b : β} {c : γ} :
    l.find? (fun a => key a = c) = some b ↔ b ∈ l ∧ key b = c := by
  constructor
  · intro h
    exact ⟨List.mem_of_find?_eq_some h, by simpa using List.find?_some h⟩
  · rintro ⟨hb, rfl⟩
    obtain ⟨a, ha⟩ := Option.isSome_iff_exists.1
      (List.find?_isSome.2 ⟨b, hb, by simp⟩ : (l.find? fun a => key a = key b).isSome = true)
    have hkey : key a = key b := by simpa using List.find?_some ha
    rw [ha, List.inj_on_of_nodup_map hdistinct (List.mem_of_find?_eq_some ha) hb hkey]

namespace Index

variable {β : Type} {index : Index β}

theorem contains_iff {l : Label} : index.contains l = true ↔ ∃ b, index.get? l = some b :=
  Option.isSome_iff_exists

theorem size_eq {labels : List Label} (hdistinct : labels.Nodup)
    (hmem : ∀ l, l ∈ labels ↔ index.contains l = true) : index.size = labels.length := by
  have hperm : index.labels.Perm labels :=
    (List.perm_ext_iff_of_nodup index.distinct hdistinct).2 fun l =>
      mem_labels.trans (hmem l).symm
  rw [← hperm.length_eq, Index.labels, List.length_map, size]

end Index

end FuzzyInference
