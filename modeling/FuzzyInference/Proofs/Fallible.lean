import Mathlib.Data.List.Forall2

/-!
# Computations that can fail

What a computation made of several fallible ones gives, and which of them is to
blame where it gives nothing: the first that fails.
-/

namespace FuzzyInference.Fallible

variable {ε β γ δ : Type}

def fault? : Except ε β → Option ε
  | .ok _ => none
  | .error e => some e

@[simp] theorem fault?_ok (b : β) : fault? (.ok b : Except ε β) = none := rfl

@[simp] theorem fault?_error (e : ε) : fault? (.error e : Except ε β) = some e := rfl

theorem fault?_eq_none {x : Except ε β} : fault? x = none ↔ ∃ b, x = .ok b := by
  cases x <;> simp

theorem fault?_eq_some {x : Except ε β} {e : ε} : fault? x = some e ↔ x = .error e := by
  cases x <;> simp

theorem toOption_eq_some {x : Except ε β} {b : β} : x.toOption = some b ↔ x = .ok b := by
  cases x <;> simp [Except.toOption]

/-! ## One after another -/

theorem bind_eq_ok {x : Except ε β} {f : β → Except ε γ} {c : γ} :
    (x >>= f) = .ok c ↔ ∃ b, x = .ok b ∧ f b = .ok c := by
  cases x with
  | error e => simp [bind, Except.bind]
  | ok b => simp [bind, Except.bind]

theorem bind_eq_ok_congr {x : Except ε β} {f g : β → Except ε γ} {c : γ}
    (h : ∀ b, f b = .ok c ↔ g b = .ok c) : (x >>= f) = .ok c ↔ (x >>= g) = .ok c := by
  simp only [bind_eq_ok, h]

/-- Of two computations that do not use each other's result either can go
first. -/
theorem bind_comm_eq_ok {x : Except ε β} {y : Except ε γ} {f : β → γ → Except ε δ} {d : δ} :
    (x >>= fun b => y >>= fun c => f b c) = .ok d ↔
      (y >>= fun c => x >>= fun b => f b c) = .ok d := by
  simp only [bind_eq_ok]
  constructor
  · rintro ⟨b, hb, c, hc, hd⟩
    exact ⟨c, hc, b, hb, hd⟩
  · rintro ⟨c, hc, b, hb, hd⟩
    exact ⟨b, hb, c, hc, hd⟩

theorem bind_eq_error {x : Except ε β} {f : β → Except ε γ} {e : ε} :
    (x >>= f) = .error e ↔ x = .error e ∨ ∃ b, x = .ok b ∧ f b = .error e := by
  cases x with
  | error e => simp [bind, Except.bind]
  | ok b => simp [bind, Except.bind]

/-- Where the second of two computations cannot fail, the first is to blame. -/
theorem fault?_bind {x : Except ε β} {f : β → Except ε γ}
    (h : ∀ b, x = .ok b → ∃ c, f b = .ok c) : fault? (x >>= f) = fault? x := by
  cases x with
  | error e => rfl
  | ok b =>
      obtain ⟨c, hc⟩ := h b rfl
      simp [bind, Except.bind, hc]

theorem fault?_bind_pure (x : Except ε β) (f : β → γ) :
    fault? (x >>= fun b => pure (f b)) = fault? x :=
  fault?_bind fun b _ => ⟨f b, rfl⟩

/-! ## One for each element of a list -/

theorem mapM_eq_ok_iff {f : β → Except ε γ} {l : List β} {r : List γ} :
    l.mapM f = .ok r ↔ List.Forall₂ (fun b c => f b = .ok c) l r := by
  induction l generalizing r with
  | nil => simp [pure, Except.pure, eq_comm]
  | cons b l ih =>
      rw [List.mapM_cons, bind_eq_ok, List.forall₂_cons_left_iff]
      apply exists_congr
      intro c
      rw [bind_eq_ok]
      simp only [ih, pure, Except.pure, Except.ok.injEq]
      constructor
      · rintro ⟨hc, rest, hrest, rfl⟩
        exact ⟨rest, hc, hrest, rfl⟩
      · rintro ⟨rest, hc, hrest, rfl⟩
        exact ⟨hc, rest, hrest, rfl⟩

theorem exists_mapM {f : β → Except ε γ} {l : List β} (h : ∀ b ∈ l, ∃ c, f b = .ok c) :
    ∃ r, l.mapM f = .ok r := by
  induction l with
  | nil => exact ⟨[], rfl⟩
  | cons b l ih =>
      obtain ⟨c, hc⟩ := h b List.mem_cons_self
      obtain ⟨r, hr⟩ := ih fun b hb => h b (List.mem_cons_of_mem _ hb)
      exact ⟨c :: r, mapM_eq_ok_iff.2 (.cons hc (mapM_eq_ok_iff.1 hr))⟩

theorem mapM_congr_of_forall₂ {f : β → Except ε δ} {g : γ → Except ε δ} {l : List β} {r : List γ}
    (h : List.Forall₂ (fun b c => f b = g c) l r) : l.mapM f = r.mapM g := by
  induction h with
  | nil => rfl
  | cons hbc _ ih => rw [List.mapM_cons, List.mapM_cons, hbc, ih]

/-- What every step keeps is kept of the whole list. -/
theorem map_eq_of_forall₂ {R : β → γ → Prop} {g : γ → δ} {k : β → δ} {l : List β} {r : List γ}
    (h : List.Forall₂ R l r) (hk : ∀ b ∈ l, ∀ c, R b c → g c = k b) : r.map g = l.map k := by
  induction h with
  | nil => rfl
  | cons hc _ ih =>
      rw [List.map_cons, List.map_cons, hk _ List.mem_cons_self _ hc,
        ih fun b hb => hk b (List.mem_cons_of_mem _ hb)]

theorem exists_mem_of_forall₂ {R : β → γ → Prop} {l : List β} {r : List γ}
    (h : List.Forall₂ R l r) {b : β} (hb : b ∈ l) : ∃ c ∈ r, R b c := by
  induction h with
  | nil => simp at hb
  | cons hc _ ih =>
      rcases List.mem_cons.1 hb with rfl | hb
      · exact ⟨_, List.mem_cons_self, hc⟩
      · obtain ⟨c, hmem, hbc⟩ := ih hb
        exact ⟨c, List.mem_cons_of_mem _ hmem, hbc⟩

/-- The first element that a step fails on is to blame. -/
theorem fault?_mapM (f : β → Except ε γ) (l : List β) :
    fault? (l.mapM f) = l.findSome? fun b => fault? (f b) := by
  induction l with
  | nil => rfl
  | cons b l ih =>
      rw [List.mapM_cons, List.findSome?_cons]
      cases hb : f b with
      | error e => rfl
      | ok c =>
          rw [fault?_ok, ← ih]
          exact fault?_bind fun r _ => ⟨c :: r, rfl⟩

/-! ## Results that agree -/

inductive Agree (R : β → γ → Prop) : Except ε β → Except ε γ → Prop
  | ok {b : β} {c : γ} (h : R b c) : Agree R (.ok b) (.ok c)
  | error (e : ε) : Agree R (.error e) (.error e)

namespace Agree

variable {β' γ' : Type} {R : β → γ → Prop} {S : β' → γ' → Prop}

theorem refl {R : β → β → Prop} (hR : ∀ b, R b b) (x : Except ε β) : Agree R x x := by
  cases x with
  | error e => exact .error e
  | ok b => exact .ok (hR b)

theorem exists_ok {x : Except ε β} {y : Except ε γ} {b : β} (h : Agree R x y) (hb : x = .ok b) :
    ∃ c, y = .ok c ∧ R b c := by
  cases h with
  | ok h =>
      cases hb
      exact ⟨_, rfl, h⟩
  | error e => cases hb

theorem bind {x : Except ε β} {y : Except ε γ} {f : β → Except ε β'} {g : γ → Except ε γ'}
    (h : Agree R x y) (hfg : ∀ b c, R b c → Agree S (f b) (g c)) :
    Agree S (x >>= f) (y >>= g) := by
  cases h with
  | ok h => exact hfg _ _ h
  | error e => exact .error e

theorem mapM {δ' : Type} {f : δ → Except ε β} {g : δ' → Except ε γ} {l : List δ} {r : List δ'}
    (h : List.Forall₂ (fun d e => Agree R (f d) (g e)) l r) :
    Agree (List.Forall₂ R) (l.mapM f) (r.mapM g) := by
  induction h with
  | nil => exact .ok .nil
  | cons hd _ ih =>
      rw [List.mapM_cons, List.mapM_cons]
      exact hd.bind fun b c hbc => ih.bind fun r s hrs => .ok (.cons hbc hrs)

end Agree

end FuzzyInference.Fallible
