import FuzzyInference.Proofs.Binary.Arithmetic
import FuzzyInference.Scalar.Binary

/-!
# Numbers that calculations cannot tell apart

Two floating-point numbers are the same if they are equal, which the two zeros
are, or if neither is a number.  Every operation makes the same numbers of the
same numbers, apart from division by zero, which tells the zeros apart.
-/

namespace FuzzyInference

/-- Equal numbers, or none at all. -/
def Scalar.Same {α : Type} [Scalar α] (x y : α) : Prop :=
  (x == y) = true ∨ (isNaN x = true ∧ isNaN y = true)

namespace Binary

open Float.Model Float.Model.UnpackedFloat

/-! ## Data -/

def IsZero (u : UnpackedFloat) : Prop := ∃ s, u = .zero s

/-- The same datum, up to the sign of a zero. -/
def Alike (u v : UnpackedFloat) : Prop := u = v ∨ (IsZero u ∧ IsZero v)

namespace Alike

variable {u u' v v' w : UnpackedFloat}

theorem refl (u : UnpackedFloat) : Alike u u := .inl rfl

theorem zero (s t : Sign) : Alike (.zero s) (.zero t) := .inr ⟨⟨s, rfl⟩, ⟨t, rfl⟩⟩

theorem symm (h : Alike u v) : Alike v u := by
  rcases h with rfl | ⟨hu, hv⟩
  · exact refl _
  · exact .inr ⟨hv, hu⟩

theorem trans (h : Alike u v) (h' : Alike v w) : Alike u w := by
  rcases h with rfl | ⟨hu, hv⟩
  · exact h'
  · rcases h' with rfl | ⟨-, hw⟩
    · exact .inr ⟨hu, hv⟩
    · exact .inr ⟨hu, hw⟩

private theorem congr₂ {op : UnpackedFloat → UnpackedFloat → UnpackedFloat}
    (hleft : ∀ s t v, Alike (op (.zero s) v) (op (.zero t) v))
    (hright : ∀ u s t, Alike (op u (.zero s)) (op u (.zero t)))
    (hu : Alike u u') (hv : Alike v v') : Alike (op u v) (op u' v') := by
  have hfirst : Alike (op u v) (op u' v) := by
    rcases hu with rfl | ⟨⟨s, rfl⟩, ⟨t, rfl⟩⟩
    · exact refl _
    · exact hleft s t v
  have hsecond : Alike (op u' v) (op u' v') := by
    rcases hv with rfl | ⟨⟨s, rfl⟩, ⟨t, rfl⟩⟩
    · exact refl _
    · exact hright u' s t
  exact hfirst.trans hsecond

theorem add (hu : Alike u u') (hv : Alike v v') :
    Alike (UnpackedFloat.add Format.binary64 u v) (UnpackedFloat.add Format.binary64 u' v') := by
  have hzeros (r s : Sign) : IsZero (UnpackedFloat.add Format.binary64 (.zero r) (.zero s)) := by
    cases r <;> cases s <;> exact ⟨_, rfl⟩
  apply congr₂ _ _ hu hv
  · intro s t v
    cases v with
    | zero r => exact .inr ⟨hzeros s r, hzeros t r⟩
    | _ => exact refl _
  · intro u s t
    cases u with
    | zero r => exact .inr ⟨hzeros r s, hzeros r t⟩
    | _ => exact refl _

theorem mul (hu : Alike u u') (hv : Alike v v') :
    Alike (UnpackedFloat.mul Format.binary64 u v) (UnpackedFloat.mul Format.binary64 u' v') := by
  apply congr₂ _ _ hu hv
  · intro s t v
    cases v with
    | infinity r => exact refl _
    | notANumber => exact refl _
    | zero r => exact zero _ _
    | finite r m e hm => exact zero _ _
  · intro u s t
    cases u with
    | infinity r => exact refl _
    | notANumber => exact refl _
    | zero r => exact zero _ _
    | finite r m e hm => exact zero _ _

theorem neg (hu : Alike u u') : Alike (UnpackedFloat.neg u) (UnpackedFloat.neg u') := by
  rcases hu with rfl | ⟨⟨s, rfl⟩, ⟨t, rfl⟩⟩
  · exact refl _
  · exact zero _ _

theorem div_right (hu : Alike u u') (v : UnpackedFloat) :
    Alike (UnpackedFloat.div Format.binary64 u v) (UnpackedFloat.div Format.binary64 u' v) := by
  rcases hu with rfl | ⟨⟨s, rfl⟩, ⟨t, rfl⟩⟩
  · exact refl _
  · cases v with
    | infinity r => exact zero _ _
    | notANumber => exact refl _
    | zero r => exact refl _
    | finite r m e hm => exact zero _ _

theorem div (hu : Alike u u') (hv : Alike v v') (hne : ¬ IsZero v) :
    Alike (UnpackedFloat.div Format.binary64 u v) (UnpackedFloat.div Format.binary64 u' v') := by
  obtain rfl : v = v' := hv.resolve_right fun h => hne h.1
  exact hu.div_right v

theorem unpack_pack (hu : Alike u u') :
    Alike (Float.Model.pack u).unpack (Float.Model.pack u').unpack := by
  rcases hu with rfl | ⟨⟨s, rfl⟩, ⟨t, rfl⟩⟩
  · exact refl _
  · cases s <;> cases t <;> exact zero _ _

theorem compare_eq (hu : Alike u u') (hv : Alike v v') : u.compare v = u'.compare v' := by
  have hleft (s t : Sign) (v : UnpackedFloat) :
      UnpackedFloat.compare (.zero s) v = UnpackedFloat.compare (.zero t) v := by
    cases v with
    | infinity r => cases r <;> rfl
    | notANumber => rfl
    | zero r => rfl
    | finite r m e hm => cases r <;> rfl
  have hright (s t : Sign) (u : UnpackedFloat) :
      UnpackedFloat.compare u (.zero s) = UnpackedFloat.compare u (.zero t) := by
    cases u with
    | infinity r => cases r <;> rfl
    | notANumber => rfl
    | zero r => rfl
    | finite r m e hm => cases r <;> rfl
  have hfirst : u.compare v = u'.compare v := by
    rcases hu with rfl | ⟨⟨s, rfl⟩, ⟨t, rfl⟩⟩
    · rfl
    · exact hleft s t v
  rcases hv with rfl | ⟨⟨s, rfl⟩, ⟨t, rfl⟩⟩
  · exact hfirst
  · exact hfirst.trans (hright s t u')

theorem of_compare (h : u.compare v = some .eq) : Alike u v := by
  have hbeq : u.beq v = true := beq_iff_eq.2 h
  rcases ((beq_iff_ne_notANumber_and_eq u v).1 hbeq).2.2 with heq | ⟨rfl, rfl⟩ | ⟨rfl, rfl⟩
  · exact .inl heq
  · exact zero _ _
  · exact zero _ _

theorem compare_self (hu : u ≠ .notANumber) : u.compare u = some .eq := by
  have hbeq := (beq_iff_ne_notANumber_and_eq u u).2 ⟨hu, hu, .inl rfl⟩
  exact beq_iff_eq.1 hbeq

theorem sub (hu : Alike u u') (hv : Alike v v') :
    Alike (UnpackedFloat.sub Format.binary64 u v) (UnpackedFloat.sub Format.binary64 u' v') := by
  rw [sub_eq_add_of_neg, sub_eq_add_of_neg]
  exact hu.add hv.neg

end Alike

/-! ## Not a number -/

theorem isNaN_eq_true_iff {a : Float} : Scalar.isNaN a = true ↔ IsNaN a := by
  change (!(a.toModel.unpack.compare a.toModel.unpack == some .eq)) = true ↔ _
  by_cases hnan : IsNaN a
  · have hunpack : a.toModel.unpack = .notANumber := hnan
    rw [hunpack]
    exact ⟨fun _ => hnan, fun _ => rfl⟩
  · rw [Alike.compare_self hnan]
    exact ⟨fun h => absurd h (by decide), fun h => absurd h hnan⟩

theorem beq_iff_compare {a b : Float} :
    (a == b) = true ↔ a.toModel.unpack.compare b.toModel.unpack = some .eq := by
  change (a.toModel.unpack.compare b.toModel.unpack == some .eq) = true ↔ _
  exact beq_iff_eq

theorem lt_iff_compare {a b : Float} :
    a < b ↔ a.toModel.unpack.compare b.toModel.unpack = some .lt := by
  change (decide (a.toModel.unpack.compare b.toModel.unpack == some .lt) = true) ↔ _
  rw [decide_eq_true_iff, beq_iff_eq]

theorem not_isNaN_of_encodes {u : UnpackedFloat} {q : ℚ} (h : Encodes u q) :
    (Float.Model.pack u).unpack ≠ .notANumber := by
  rcases unpack_pack_of_encodes h with hu | ⟨s, hs⟩
  · rw [hu]
    rintro rfl
    exact h
  · rw [hs]
    exact fun h => by cases h

theorem IsValue.not_isNaN_mul {a b : Float} {x y : ℚ} (ha : IsValue a x) (hb : IsValue b y) :
    ¬ IsNaN (a * b) :=
  not_isNaN_of_encodes (encodes_mul ha hb)

private theorem unpack_pack_infinity (s : Sign) :
    (Float.Model.pack (.infinity s)).unpack = .infinity s := by
  cases s <;> rfl

theorem IsValue.add_infinity {a b : Float} {x : ℚ} {s : Sign} (ha : IsValue a x)
    (hs : b.toModel.unpack = .infinity s) : (a + b).toModel.unpack = .infinity s := by
  have hsum : UnpackedFloat.add Format.binary64 a.toModel.unpack (.infinity s) = .infinity s := by
    unfold IsValue at ha
    cases hu : a.toModel.unpack with
    | infinity t => rw [hu] at ha; exact ha.elim
    | notANumber => rw [hu] at ha; exact ha.elim
    | zero t => rfl
    | finite t m e hm => rfl
  change (Float.Model.pack (UnpackedFloat.add _ _ _)).unpack = _
  rw [hs, hsum, unpack_pack_infinity]

theorem IsValue.not_isNaN_add {a b : Float} {x : ℚ} (ha : IsValue a x) (hb : ¬ IsNaN b) :
    ¬ IsNaN (a + b) := by
  rcases isValue_or_infinity hb with ⟨y, hy⟩ | ⟨s, hs⟩
  · exact not_isNaN_of_encodes (encodes_add ha hy)
  · rw [IsNaN, ha.add_infinity hs]
    exact fun h => by cases h

private theorem not_isZero_sub_of_values {a b : Float} {x y : ℚ} (ha : IsValue a x)
    (hb : IsValue b y) (h : x < y) : ¬ IsZero (b - a).toModel.unpack := by
  have hpos := rounded_sub_pos ha.isDouble hb.isDouble h
  have hdiff := encodes_sub hb ha
  rintro ⟨s, hs⟩
  rcases unpack_pack_of_encodes hdiff with hu | ⟨t, ht⟩
  · rw [hu.symm.trans hs] at hdiff
    exact hpos.ne' hdiff
  · cases ht.symm.trans hs

private theorem sub_infinity : ∀ {u v : UnpackedFloat}, u.compare v = some .lt →
    (∃ s, u = .infinity s) ∨ (∃ s, v = .infinity s) →
    ∃ r, UnpackedFloat.sub Format.binary64 v u = .infinity r
  | .infinity .negative, .infinity .positive, _, _ => ⟨_, rfl⟩
  | .infinity .negative, .zero _, _, _ => ⟨_, rfl⟩
  | .infinity .negative, .finite .., _, _ => ⟨_, rfl⟩
  | .zero _, .infinity .positive, _, _ => ⟨_, rfl⟩
  | .finite .., .infinity .positive, _, _ => ⟨_, rfl⟩

theorem isZero_of_beq {a : Float} (h : (a == 0) = true) : IsZero a.toModel.unpack := by
  rcases Alike.of_compare (beq_iff_compare.1 h) with heq | ⟨hzero, -⟩
  · exact ⟨_, heq⟩
  · exact hzero

theorem sub_ne_zero_of_lt {a b : Float} (h : a < b) : ¬ (b - a == 0) = true := by
  intro hzero
  have hdiff := isZero_of_beq hzero
  obtain ⟨ha, hb⟩ := not_isNaN_of_lt h
  have hinfinite (hinf : (∃ s, a.toModel.unpack = .infinity s) ∨
      ∃ s, b.toModel.unpack = .infinity s) : False := by
    obtain ⟨r, hr⟩ := sub_infinity (lt_iff_compare.1 h) hinf
    obtain ⟨s, hs⟩ := hdiff
    change (Float.Model.pack (UnpackedFloat.sub _ _ _)).unpack = _ at hs
    rw [hr, unpack_pack_infinity] at hs
    cases hs
  rcases isValue_or_infinity ha with ⟨x, hx⟩ | hinf
  · rcases isValue_or_infinity hb with ⟨y, hy⟩ | hinf
    · exact not_isZero_sub_of_values hx hy ((hx.lt_iff hy).1 h) hdiff
    · exact hinfinite (.inr hinf)
  · exact hinfinite (.inl hinf)

/-- Two numbers with a third between them, or what is no number, do not differ
by zero. -/
theorem sub_ne_zero_of_between {x a b : Float} (hx : ¬ IsNaN x) (ha : ¬ x < a) (hb : ¬ b < x)
    (hxa : ¬ (x == a) = true) (hxb : ¬ (x == b) = true) : ¬ (b - a == 0) = true := by
  by_cases hnan : IsNaN a ∨ IsNaN b
  · intro hzero
    obtain ⟨s, hs⟩ := isZero_of_beq hzero
    have hsub : UnpackedFloat.sub Format.binary64 b.toModel.unpack a.toModel.unpack =
        .notANumber := by
      rcases hnan with hnan | hnan
      · rw [hnan]
        cases b.toModel.unpack <;> rfl
      · rw [hnan]
        rfl
    change (Float.Model.pack (UnpackedFloat.sub _ _ _)).unpack = _ at hs
    rw [hsub] at hs
    cases hs
  · obtain ⟨hna, hnb⟩ := not_or.1 hnan
    rw [lt_iff_level hx hna] at ha
    rw [lt_iff_level hnb hx] at hb
    rw [beq_iff_level hx hna] at hxa
    rw [beq_iff_level hx hnb] at hxb
    have hlow := lt_of_le_of_ne (not_lt.1 ha) (Ne.symm hxa)
    have hhigh := lt_of_le_of_ne (not_lt.1 hb) hxb
    exact sub_ne_zero_of_lt ((lt_iff_level hna hnb).2 (hlow.trans hhigh))

end Binary

/-! ## Numbers -/

namespace Scalar.Same

open Binary Float.Model Float.Model.UnpackedFloat

variable {a a' b b' c : Float}

theorem iff_alike : Same a b ↔ Alike a.toModel.unpack b.toModel.unpack := by
  rw [Same, isNaN_eq_true_iff, isNaN_eq_true_iff, beq_iff_compare]
  constructor
  · rintro (heq | ⟨ha, hb⟩)
    · exact Alike.of_compare heq
    · exact .inl (ha.trans hb.symm)
  · intro h
    by_cases hnan : IsNaN a
    · rcases h with h | ⟨⟨s, hs⟩, -⟩
      · exact .inr ⟨hnan, h.symm.trans hnan⟩
      · rw [IsNaN, hs] at hnan
        cases hnan
    · exact .inl ((Alike.compare_eq (Alike.refl _) h.symm).trans (Alike.compare_self hnan))

theorem iff_level (ha : ¬ IsNaN a) (hb : ¬ IsNaN b) : Same a b ↔ level a = level b := by
  rw [← beq_iff_level ha hb, Same, isNaN_eq_true_iff]
  exact or_iff_left fun h => ha h.1

theorem level_eq (h : Same a b) : level a = level b := by
  rcases iff_alike.1 h with heq | ⟨⟨s, hs⟩, ⟨t, ht⟩⟩
  · rw [level, level, heq]
  · rw [level, level, hs, ht]
    rfl

theorem refl (a : Float) : Same a a := iff_alike.2 (Alike.refl _)

theorem symm (h : Same a b) : Same b a := iff_alike.2 (iff_alike.1 h).symm

theorem trans (h : Same a b) (h' : Same b c) : Same a c :=
  iff_alike.2 ((iff_alike.1 h).trans (iff_alike.1 h'))

theorem of_beq (h : (a == b) = true) : Same a b := .inl h

/-! ### Arithmetic -/

theorem add (ha : Same a a') (hb : Same b b') : Same (a + b) (a' + b') :=
  iff_alike.2 ((iff_alike.1 ha).add (iff_alike.1 hb)).unpack_pack

theorem sub (ha : Same a a') (hb : Same b b') : Same (a - b) (a' - b') :=
  iff_alike.2 ((iff_alike.1 ha).sub (iff_alike.1 hb)).unpack_pack

theorem mul (ha : Same a a') (hb : Same b b') : Same (a * b) (a' * b') :=
  iff_alike.2 ((iff_alike.1 ha).mul (iff_alike.1 hb)).unpack_pack

theorem neg (ha : Same a a') : Same (-a) (-a') :=
  iff_alike.2 (iff_alike.1 ha).neg.unpack_pack

theorem div_right (ha : Same a a') (b : Float) : Same (a / b) (a' / b) :=
  iff_alike.2 ((iff_alike.1 ha).div_right _).unpack_pack

theorem div (ha : Same a a') (hb : Same b b') (hne : ¬ (b == 0) = true) :
    Same (a / b) (a' / b') := by
  have hzero : ¬ IsZero b.toModel.unpack := by
    rintro ⟨s, hs⟩
    apply hne
    rw [beq_iff_compare, hs]
    rfl
  exact iff_alike.2 ((iff_alike.1 ha).div (iff_alike.1 hb) hzero).unpack_pack

/-! ### Comparisons -/

theorem lt_iff (ha : Same a a') (hb : Same b b') : a < b ↔ a' < b' := by
  rw [lt_iff_compare, lt_iff_compare, Alike.compare_eq (iff_alike.1 ha) (iff_alike.1 hb)]

theorem le_iff (ha : Same a a') (hb : Same b b') : a ≤ b ↔ a' ≤ b' := by
  change (decide ((a.toModel.unpack.compare b.toModel.unpack).any (·.isLE) = true) = true) ↔
    (decide ((a'.toModel.unpack.compare b'.toModel.unpack).any (·.isLE) = true) = true)
  rw [Alike.compare_eq (iff_alike.1 ha) (iff_alike.1 hb)]

theorem beq_eq (ha : Same a a') (hb : Same b b') : (a == b) = (a' == b') := by
  rw [Bool.eq_iff_iff, beq_iff_compare, beq_iff_compare,
    Alike.compare_eq (iff_alike.1 ha) (iff_alike.1 hb)]

theorem beq_iff (ha : Same a a') (hb : Same b b') : (a == b) = true ↔ (a' == b') = true := by
  rw [ha.beq_eq hb]

theorem isNaN_eq (ha : Same a a') : isNaN a = isNaN a' := by
  rw [isNaN, isNaN]
  exact congrArg _ (ha.beq_eq ha)

theorem ite {p q : Prop} [Decidable p] [Decidable q] (h : p ↔ q) (ha : Same a a')
    (hb : Same b b') : Same (if p then a else b) (if q then a' else b') := by
  by_cases hp : p
  · rw [if_pos hp, if_pos (h.1 hp)]
    exact ha
  · rw [if_neg hp, if_neg (fun hq => hp (h.2 hq))]
    exact hb

theorem larger (ha : Same a a') (hb : Same b b') : Same (larger a b) (Scalar.larger a' b') :=
  ite (or_congr (ha.lt_iff hb) (by rw [ha.isNaN_eq])) hb ha

theorem smaller (ha : Same a a') (hb : Same b b') : Same (smaller a b) (Scalar.smaller a' b') :=
  ite (or_congr (hb.lt_iff ha) (by rw [ha.isNaN_eq])) hb ha

theorem magnitude (ha : Same a a') : Same (magnitude a) (Scalar.magnitude a') :=
  ite (ha.lt_iff (refl 0)) ha.neg ha

/-! ### Lists -/

variable {xs ys : List Float}

theorem getD {x? y? : Option Float} (h : Option.Rel Same x? y?) (ha : Same a a') :
    Same (x?.getD a) (y?.getD a') := by
  cases h with
  | none => exact ha
  | some hxy => exact hxy

theorem sum (h : List.Forall₂ Same xs ys) : Same (sum xs) (Scalar.sum ys) :=
  List.rel_foldl (fun _ _ hacc _ _ hx => hacc.add hx) (refl _) h

theorem greatest? (h : List.Forall₂ Same xs ys) :
    Option.Rel Same (greatest? xs) (Scalar.greatest? ys) := by
  cases h with
  | nil => exact .none
  | cons hxy h => exact .some (List.rel_foldl (fun _ _ hacc _ _ hx => hacc.larger hx) hxy h)

theorem least? (h : List.Forall₂ Same xs ys) :
    Option.Rel Same (least? xs) (Scalar.least? ys) := by
  cases h with
  | nil => exact .none
  | cons hxy h => exact .some (List.rel_foldl (fun _ _ hacc _ _ hx => hacc.smaller hx) hxy h)

end Scalar.Same

end FuzzyInference
