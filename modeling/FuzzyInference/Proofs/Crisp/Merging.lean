import FuzzyInference.Proofs.Binary.Degree
import FuzzyInference.Proofs.Crisp.Congruence
import FuzzyInference.Proofs.Curve.Rounded

/-!
# What a merged curve depends on

A merged curve is known at the positions of its sets, and as high as the
strongest conclusion of each allows.  Groups each of which covers the other have
the same merged curve, in whatever order and however often they conclude.
-/

namespace FuzzyInference

open Scalar Binary Fallible

/-! ## Positions -/

theorem Shape.exists_isValue_of_mem {s : Shape Float} {x : Float} (hx : x ∈ s.positions) :
    ∃ q, IsValue x q ∧ 0 ≤ q := by
  cases s with
  | graph kind curve fits =>
      obtain ⟨p, -, rfl⟩ := List.mem_map.1 hx
      exact p.toPosition.exists_isValue
  | singleton support =>
      rw [List.mem_singleton.1 hx]
      exact support.exists_isValue

theorem exists_isValue_step {lower upper : Float} {l u : ℚ} {count : ℕ}
    (hl : IsValue lower l) (hu : IsValue upper u) (hl0 : 0 ≤ l) (hu0 : 0 ≤ u) (hone : 1 < count)
    (hcount : count ≤ 2 ^ 53) :
    ∃ q, IsValue ((upper - lower) / ofNat (count - 1)) q ∧ (l ≤ u → 0 ≤ q) := by
  -- numbers that are not negative differ by no more than the greater of them
  obtain ⟨z, hz, hzlt, hlz, huz⟩ : ∃ z, IsDouble z ∧ z < 2 ^ (1024 : ℤ) ∧ l ≤ z ∧ u ≤ z := by
    rcases le_total l u with hle | hle
    · exact ⟨u, hu.isDouble, (le_abs_self u).trans_lt hu.abs_lt, hle, le_rfl⟩
    · exact ⟨l, hl.isDouble, (le_abs_self l).trans_lt hl.abs_lt, le_rfl, hle⟩
  have hdiff : |u - l| ≤ z := abs_le.2 ⟨by linarith, by linarith⟩
  have hwidth := hu.sub hl (inRange_of_abs_le hz hzlt hdiff)
  have hgaps : IsValue (ofNat (count - 1)) ((count - 1 : ℕ) : ℚ) := isValue_ofNat (by omega)
  have hgaps1 : (1 : ℚ) ≤ ((count - 1 : ℕ) : ℚ) := by exact_mod_cast Nat.le_sub_one_of_lt hone
  have hpart : |rounded (u - l) / ((count - 1 : ℕ) : ℚ)| ≤ z := by
    rw [abs_div, Nat.abs_cast]
    exact (div_le_self (abs_nonneg _) hgaps1).trans (abs_rounded_le hz hdiff)
  refine ⟨_, hwidth.div hgaps (by linarith) (inRange_of_abs_le hz hzlt hpart), fun hle => ?_⟩
  exact rounded_nonneg (div_nonneg (rounded_nonneg (sub_nonneg.2 hle)) (by linarith))

theorem not_isNaN_evenlySpaced {lower upper x : Float} {l u : ℚ} {count : ℕ}
    (hl : IsValue lower l) (hu : IsValue upper u) (hl0 : 0 ≤ l) (hu0 : 0 ≤ u)
    (hcount : count ≤ 2 ^ 53) (hx : x ∈ evenlySpaced lower upper count) : ¬ IsNaN x := by
  obtain ⟨i, hi, rfl⟩ := List.mem_map.1 hx
  have hplace : IsValue (ofNat i) i :=
    isValue_ofNat ((List.mem_range.1 hi).trans_le hcount)
  suffices hstep : ∃ q, IsValue (if 1 < count then (upper - lower) / ofNat (count - 1) else 0) q by
    obtain ⟨q, hq⟩ := hstep
    exact hl.not_isNaN_add (hq.not_isNaN_mul hplace)
  by_cases hone : 1 < count
  · obtain ⟨q, hq, -⟩ := exists_isValue_step hl hu hl0 hu0 hone hcount
    rw [if_pos hone]
    exact ⟨q, hq⟩
  · rw [if_neg hone]
    exact ⟨0, isValue_zero⟩

theorem evenlySpaced_same {lower upper lower' upper' : Float} (hl : Same lower lower')
    (hu : Same upper upper') (count : ℕ) :
    List.Forall₂ Same (evenlySpaced lower upper count) (evenlySpaced lower' upper' count) := by
  unfold evenlySpaced
  rw [List.forall₂_map_left_iff, List.forall₂_map_right_iff, List.forall₂_same]
  intro i _
  exact hl.add (Same.mul (Same.ite Iff.rfl ((hu.sub hl).div_right _) (Same.refl _)) (Same.refl _))

/-! ## Groups that cover each other -/

/-- Everything in the first group is concluded in the second at least as
strongly. -/
def CoveredBy (group cover : List (Activation Float)) : Prop :=
  ∀ a ∈ group, ∃ b ∈ cover, a.set.shape.Same b.set.shape ∧ a.strength ≤ b.strength

/-- The numbers of which the height of a merged curve is the greatest. -/
def clippedHeights (group : List (Activation Float)) (x : Float) : List Float :=
  0 :: group.map fun a => (a.clipped x).value

theorem not_isNaN_clippedHeights (group : List (Activation Float)) (x : Float) :
    ∀ y ∈ clippedHeights group x, ¬ IsNaN y := by
  rw [clippedHeights, List.forall_mem_cons, List.forall_mem_map]
  exact ⟨isValue_zero.not_isNaN, fun a _ => (a.clipped x).not_isNaN⟩

namespace CoveredBy

variable {g h : List (Activation Float)} {x x' : Float}

theorem all_isZero (hgh : CoveredBy g h) (hzero : h.all fun a => a.strength.isZero) :
    g.all fun a => a.strength.isZero := by
  rw [List.all_eq_true] at hzero ⊢
  intro a ha
  obtain ⟨b, hb, -, hle⟩ := hgh a ha
  exact Degree.isZero_of_le hle (hzero b hb)

theorem all_isSingleton (hgh : CoveredBy g h) (hall : h.all fun a => a.set.shape.isSingleton) :
    g.all fun a => a.set.shape.isSingleton := by
  rw [List.all_eq_true] at hall ⊢
  intro a ha
  obtain ⟨b, hb, hsame, -⟩ := hgh a ha
  exact hsame.isSingleton_eq.trans (hall b hb)

theorem any_isSingleton (hgh : CoveredBy g h) (hany : g.any fun a => a.set.shape.isSingleton) :
    h.any fun a => a.set.shape.isSingleton := by
  obtain ⟨a, ha, hsingleton⟩ := List.any_eq_true.1 hany
  obtain ⟨b, hb, hsame, -⟩ := hgh a ha
  exact List.any_eq_true.2 ⟨b, hb, hsame.isSingleton_eq.symm.trans hsingleton⟩

theorem level_mem {f : Shape Float → List Float} (hgh : CoveredBy g h)
    (hf : ∀ s t, Shape.Same s t → List.Forall₂ Same (f s) (f t)) {k : WithBot (WithTop ℚ)}
    (hk : k ∈ (g.flatMap fun a => f a.set.shape).map level) :
    k ∈ (h.flatMap fun a => f a.set.shape).map level := by
  obtain ⟨x, hx, rfl⟩ := List.mem_map.1 hk
  obtain ⟨a, ha, hxa⟩ := List.mem_flatMap.1 hx
  obtain ⟨b, hb, hsame, -⟩ := hgh a ha
  obtain ⟨y, hy, hxy⟩ := exists_mem_of_forall₂ (hf _ _ hsame) hxa
  exact List.mem_map.2 ⟨y, List.mem_flatMap.2 ⟨b, hb, hy⟩, hxy.level_eq.symm⟩

theorem exists_clipped_le (hgh : CoveredBy g h) (hnan : ¬ IsNaN x) (hx : Same x x') :
    ∀ y ∈ clippedHeights g x, ∃ y' ∈ clippedHeights h x', level y ≤ level y' := by
  rw [clippedHeights, List.forall_mem_cons, List.forall_mem_map]
  refine ⟨⟨0, List.mem_cons_self, le_rfl⟩, fun a ha => ?_⟩
  obtain ⟨b, hb, hsame, hle⟩ := hgh a ha
  have hmembership : level (a.set.membership x).value = level (b.set.membership x').value :=
    Same.level_eq (hsame.membership hnan hx)
  refine ⟨_, List.mem_cons_of_mem _ (List.mem_map_of_mem hb), ?_⟩
  rw [Activation.clipped, Activation.clipped, Degree.level_min, Degree.level_min, hmembership]
  exact min_le_min_right _ (Degree.le_iff_level.1 hle)

end CoveredBy

structure Interchangeable (g h : List (Activation Float)) : Prop where
  covered : CoveredBy g h
  covers : CoveredBy h g

namespace Interchangeable

variable {g h : List (Activation Float)} {x x' : Float}

theorem all_isZero_eq (e : Interchangeable g h) :
    (g.all fun a => a.strength.isZero) = h.all fun a => a.strength.isZero :=
  Bool.eq_iff_iff.2 ⟨e.covers.all_isZero, e.covered.all_isZero⟩

theorem groupDomain?_eq (e : Interchangeable g h) : groupDomain? g = groupDomain? h := by
  have hall : (g.all fun a => a.set.shape.isSingleton) = h.all fun a => a.set.shape.isSingleton :=
    Bool.eq_iff_iff.2 ⟨e.covers.all_isSingleton, e.covered.all_isSingleton⟩
  have hany : (g.any fun a => a.set.shape.isSingleton) = h.any fun a => a.set.shape.isSingleton :=
    Bool.eq_iff_iff.2 ⟨e.covered.any_isSingleton, e.covers.any_isSingleton⟩
  rw [groupDomain?, groupDomain?, hall, hany]

theorem level_mem_iff {f : Shape Float → List Float} (e : Interchangeable g h)
    (hf : ∀ s t, Shape.Same s t → List.Forall₂ Same (f s) (f t)) (k : WithBot (WithTop ℚ)) :
    k ∈ (g.flatMap fun a => f a.set.shape).map level ↔
      k ∈ (h.flatMap fun a => f a.set.shape).map level :=
  ⟨e.covered.level_mem hf, e.covers.level_mem hf⟩

end Interchangeable

/-! ## Merged curves -/

namespace Aggregate

private theorem not_isNaN_map {f : Shape Float → Float} (hf : ∀ s, f s ∈ s.positions)
    (g : List (Activation Float)) : ∀ x ∈ g.map fun a => f a.set.shape, ¬ IsNaN x := by
  intro x hx
  obtain ⟨a, -, rfl⟩ := List.mem_map.1 hx
  exact ranks.not_nan_of_mem (hf _)

def known (domain : Domain) (g : List (Activation Float)) : List Float :=
  match domain with
  | .discrete => g.flatMap fun a => a.set.shape.positions
  | .continuous => (g.flatMap fun a => a.set.shape.positions) ++ spread g

theorem not_isNaN_spread (g : List (Activation Float)) : ∀ x ∈ spread g, ¬ IsNaN x := by
  intro x hx
  unfold spread at hx
  split at hx
  · next lower upper hlower hupper =>
      have hlmem := (least?_spec (not_isNaN_map Shape.lower_mem g) hlower).1
      have humem := (greatest?_spec (not_isNaN_map Shape.upper_mem g) hupper).1
      obtain ⟨a, -, rfl⟩ := List.mem_map.1 hlmem
      obtain ⟨b, -, rfl⟩ := List.mem_map.1 humem
      obtain ⟨l, hl, hl0⟩ := Shape.exists_isValue_of_mem a.set.shape.lower_mem
      obtain ⟨u, hu, hu0⟩ := Shape.exists_isValue_of_mem b.set.shape.upper_mem
      exact not_isNaN_evenlySpaced hl hu hl0 hu0 (by norm_num [sampleCount]) hx
  · simp at hx

private theorem bounds_same {f : Shape Float → Float} {g h : List (Activation Float)}
    (e : Interchangeable g h) (hf : ∀ s, f s ∈ s.positions)
    (hsame : ∀ s t, Shape.Same s t → Same (f s) (f t)) :
    Option.Rel Same (least? (g.map fun a => f a.set.shape))
        (least? (h.map fun a => f a.set.shape)) ∧
      Option.Rel Same (greatest? (g.map fun a => f a.set.shape))
        (greatest? (h.map fun a => f a.set.shape)) := by
  apply extremes_same (not_isNaN_map hf g) (not_isNaN_map hf h)
  intro k
  have hlevels := e.level_mem_iff (fun s t hst => .cons (hsame s t hst) .nil) k
  rwa [← List.map_eq_flatMap, ← List.map_eq_flatMap] at hlevels

theorem spread_same {g h : List (Activation Float)} (e : Interchangeable g h) :
    List.Forall₂ Same (spread g) (spread h) := by
  have hlower : Option.Rel Same (least? (g.map fun a => a.set.lower))
      (least? (h.map fun a => a.set.lower)) :=
    (bounds_same e Shape.lower_mem fun _ _ hst => hst.lower).1
  have hupper : Option.Rel Same (greatest? (g.map fun a => a.set.upper))
      (greatest? (h.map fun a => a.set.upper)) :=
    (bounds_same e Shape.upper_mem fun _ _ hst => hst.upper).2
  unfold spread
  generalize least? (g.map fun a => a.set.lower) = l?,
    least? (h.map fun a => a.set.lower) = l'? at hlower ⊢
  generalize greatest? (g.map fun a => a.set.upper) = u?,
    greatest? (h.map fun a => a.set.upper) = u'? at hupper ⊢
  cases hlower with
  | none => exact .nil
  | some hl =>
      cases hupper with
      | none => exact .nil
      | some hu => exact evenlySpaced_same hl hu sampleCount

theorem not_isNaN_known (domain : Domain) (g : List (Activation Float)) :
    ∀ x ∈ known domain g, ¬ IsNaN x := by
  have hdefining : ∀ x ∈ g.flatMap fun a => a.set.shape.positions, ¬ IsNaN x := by
    intro x hx
    obtain ⟨a, -, hxa⟩ := List.mem_flatMap.1 hx
    exact ranks.not_nan_of_mem hxa
  cases domain with
  | discrete => exact hdefining
  | continuous =>
      intro x hx
      rcases List.mem_append.1 hx with hx | hx
      · exact hdefining x hx
      · exact not_isNaN_spread g x hx

theorem level_mem_positions {domain : Domain} {g : List (Activation Float)}
    {k : WithBot (WithTop ℚ)} :
    k ∈ (positions domain g).map level ↔ k ∈ (known domain g).map level :=
  (ranks.map_sortedDistinct (not_isNaN_known domain g)).2 k

/-- What is known before sorting is a position, but for the sign of a zero. -/
theorem exists_position {domain : Domain} {g : List (Activation Float)} {x : Float}
    (hx : x ∈ known domain g) : ∃ y ∈ positions domain g, level y = level x :=
  List.mem_map.1 (level_mem_positions.2 (List.mem_map_of_mem hx))

/-- In either domain the merged curve is known where a set is defined. -/
theorem mem_known {g : List (Activation Float)} {a : Activation Float} {x : Float} (ha : a ∈ g)
    (hx : x ∈ a.set.shape.positions) (domain : Domain) : x ∈ known domain g := by
  have hdefining : x ∈ g.flatMap fun a => a.set.shape.positions := List.mem_flatMap.2 ⟨a, ha, hx⟩
  cases domain with
  | discrete => exact hdefining
  | continuous => exact List.mem_append_left _ hdefining

theorem not_isNaN_positions (domain : Domain) (g : List (Activation Float)) :
    ∀ x ∈ positions domain g, ¬ IsNaN x :=
  fun x hx => not_isNaN_known domain g x (subset_sortedDistinct _ hx)

theorem positions_same {g h : List (Activation Float)} (e : Interchangeable g h)
    (domain : Domain) : List.Forall₂ Same (positions domain g) (positions domain h) := by
  have hdefining := e.level_mem_iff fun _ _ hst => hst.positions
  apply sortedDistinct_same (not_isNaN_known domain g) (not_isNaN_known domain h)
  intro k
  cases domain with
  | discrete => exact hdefining k
  | continuous =>
      have hspread : (spread h).map level = (spread g).map level :=
        map_eq_of_forall₂ (spread_same e) fun _ _ _ hxy => hxy.level_eq.symm
      rw [known, known, List.map_append, List.map_append, List.mem_append, List.mem_append, hspread,
        hdefining k]

theorem height_same {g h : List (Activation Float)} {x x' : Float} (e : Interchangeable g h)
    (hnan : ¬ IsNaN x) (hx : Same x x') : Same (height g x) (height h x') := by
  have hnan' : ¬ IsNaN x' := by
    rwa [← isNaN_eq_true_iff, ← hx.isNaN_eq, isNaN_eq_true_iff]
  have hgreatest := greatest?_same_of_le (not_isNaN_clippedHeights g x)
    (not_isNaN_clippedHeights h x') (e.covered.exists_clipped_le hnan hx)
    (e.covers.exists_clipped_le hnan' hx.symm)
  cases hgreatest with
  | some hsame => exact hsame

theorem curve_same {g h : List (Activation Float)} (e : Interchangeable g h) (domain : Domain) :
    List.Forall₂ Corner.Same (curve domain g) (curve domain h) := by
  have hpositions := (List.forall₂_and_left _ _).2
    ⟨not_isNaN_positions domain g, positions_same e domain⟩
  exact List.rel_map (fun x x' hx => ⟨hx.2, height_same e hx.1 hx.2⟩) hpositions

end Aggregate

/-! ## Values -/

structure Outcome.Same (o p : Outcome Float) : Prop where
  subject : o.subject = p.subject
  value : Scalar.Same o.value p.value

theorem Outcome.ofValue?_agree (s : Label) {x? y? : Option Float}
    (h : Option.Rel Scalar.Same x? y?) :
    Agree Outcome.Same (ofValue? s x?) (ofValue? s y?) := by
  cases h with
  | none => exact .error _
  | some hxy => exact .ok ⟨rfl, hxy⟩

/-- Interchangeable groups of one subject have the same value, or are refused
for the same reason. -/
theorem Interchangeable.defuzzify_agree {g h : List (Activation Float)} (e : Interchangeable g h)
    {s : Label} (hg : ∀ a ∈ g, a.subject = s) (hh : ∀ a ∈ h, a.subject = s) (method : Method) :
    Agree Outcome.Same (method.defuzzify g) (method.defuzzify h) := by
  by_cases hnil : g = []
  · have hnil' : h = [] := by
      rw [List.eq_nil_iff_forall_not_mem]
      intro b hb
      obtain ⟨a, ha, -⟩ := e.covers b hb
      rw [hnil] at ha
      exact List.not_mem_nil ha
    rw [hnil, hnil']
    exact .error _
  · have hne : h ≠ [] := by
      obtain ⟨a, ha⟩ := List.exists_mem_of_ne_nil g hnil
      obtain ⟨b, hb, -⟩ := e.covered a ha
      exact List.ne_nil_of_mem hb
    change Agree _ ((Defuzzifier.merging method).defuzzify g)
      ((Defuzzifier.merging method).defuzzify h)
    rw [Defuzzifier.defuzzify_eq, Defuzzifier.defuzzify_eq, groupSubject_of_forall hnil hg,
      groupSubject_of_forall hne hh, e.all_isZero_eq]
    split_ifs
    · exact .error _
    · change Agree _ ((Defuzzifier.merging method).outcomeOn g s)
        ((Defuzzifier.merging method).outcomeOn h s)
      rw [Defuzzifier.outcomeOn, Defuzzifier.outcomeOn, e.groupDomain?_eq]
      cases groupDomain? h with
      | none => exact .error _
      | some domain =>
          exact Outcome.ofValue?_agree s (method.value?_same domain (Aggregate.curve_same e domain))

/-! ## The strongest conclusion of each shape -/

def strongest? (group : List (Activation Float)) (shape : Shape Float) : Option Float :=
  greatest? ((group.filter fun a => a.set.shape == shape).map fun a => a.strength.value)

theorem strongest?_spec {group : List (Activation Float)} {shape : Shape Float} {x : Float}
    (h : strongest? group shape = some x) :
    (∃ a ∈ group, (a.set.shape == shape) = true ∧ x = a.strength.value) ∧
      ∀ a ∈ group, (a.set.shape == shape) = true → level a.strength.value ≤ level x := by
  have hnumbers : ∀ y ∈ (group.filter fun a => a.set.shape == shape).map fun a => a.strength.value,
      ¬ IsNaN y := by
    rw [List.forall_mem_map]
    exact fun a _ => a.strength.not_isNaN
  obtain ⟨hmem, hle⟩ := greatest?_spec hnumbers h
  obtain ⟨a, ha, rfl⟩ := List.mem_map.1 hmem
  rw [List.mem_filter] at ha
  refine ⟨⟨a, ha.1, ha.2, rfl⟩, fun b hb hshape => ?_⟩
  exact hle _ (List.mem_map_of_mem (List.mem_filter.2 ⟨hb, hshape⟩))

theorem strongest?_eq_none_iff {group : List (Activation Float)} {shape : Shape Float} :
    strongest? group shape = none ↔ ∀ a ∈ group, ¬ (a.set.shape == shape) = true := by
  rw [strongest?, ← List.filter_eq_nil_iff]
  cases group.filter fun a => a.set.shape == shape with
  | nil => exact ⟨fun _ => rfl, fun _ => rfl⟩
  | cons a rest => exact iff_of_false (Option.some_ne_none _) (List.cons_ne_nil _ _)

theorem coveredBy_of_strongest? {g h : List (Activation Float)}
    (hsame : ∀ shape, Option.Rel Same (strongest? g shape) (strongest? h shape)) :
    CoveredBy g h := by
  intro a ha
  have hshape := hsame a.set.shape
  generalize hx? : strongest? g a.set.shape = x?, hy? : strongest? h a.set.shape = y? at hshape
  cases hshape with
  | none => exact absurd a.set.shape.beq_self (strongest?_eq_none_iff.1 hx? a ha)
  | some hxy =>
      have hle := (strongest?_spec hx?).2 a ha a.set.shape.beq_self
      obtain ⟨⟨b, hb, hbeq, rfl⟩, -⟩ := strongest?_spec hy?
      exact ⟨b, hb, (Shape.same_of_beq hbeq).symm,
        Degree.le_iff_level.2 (hle.trans hxy.level_eq.le)⟩

theorem interchangeable_of_strongest? {g h : List (Activation Float)}
    (hsame : ∀ shape, Option.Rel Same (strongest? g shape) (strongest? h shape)) :
    Interchangeable g h := by
  refine ⟨coveredBy_of_strongest? hsame, coveredBy_of_strongest? fun shape => ?_⟩
  have hshape := hsame shape
  generalize strongest? g shape = x?, strongest? h shape = y? at hshape ⊢
  cases hshape with
  | none => exact .none
  | some hxy => exact .some hxy.symm

/-! ## Order and repetition -/

theorem coveredBy_of_subset {g h : List (Activation Float)} (hsub : g ⊆ h) : CoveredBy g h :=
  fun a ha => ⟨a, hsub ha, .refl _, Degree.le_iff_level.2 le_rfl⟩

theorem interchangeable_of_mem_iff {g h : List (Activation Float)} (hmem : ∀ a, a ∈ g ↔ a ∈ h) :
    Interchangeable g h :=
  ⟨coveredBy_of_subset fun a ha => (hmem a).1 ha, coveredBy_of_subset fun a ha => (hmem a).2 ha⟩

/-- Two conclusions of one shape can be made one, as strong as the stronger. -/
theorem interchangeable_of_union {g rest : List (Activation Float)} {a b c : Activation Float}
    (hperm : g.Perm (a :: b :: rest)) (ha : (a.set.shape == c.set.shape) = true)
    (hb : (b.set.shape == c.set.shape) = true)
    (hstrength : c.strength = max a.strength b.strength) :
    Interchangeable g (c :: rest) := by
  have hac := Shape.same_of_beq ha
  have hbc := Shape.same_of_beq hb
  have hlevel : level c.strength.value = max (level a.strength.value) (level b.strength.value) := by
    rw [hstrength, Degree.level_max]
  constructor
  · intro d hd
    rcases List.mem_cons.1 (hperm.mem_iff.1 hd) with rfl | hd
    · exact ⟨c, List.mem_cons_self, hac, Degree.le_iff_level.2 (hlevel ▸ le_max_left _ _)⟩
    · rcases List.mem_cons.1 hd with rfl | hd
      · exact ⟨c, List.mem_cons_self, hbc,
          Degree.le_iff_level.2 (hlevel ▸ le_max_right _ _)⟩
      · exact ⟨d, List.mem_cons_of_mem _ hd, .refl _, Degree.le_iff_level.2 le_rfl⟩
  · intro d hd
    rcases List.mem_cons.1 hd with rfl | hd
    · rcases max_choice (level a.strength.value) (level b.strength.value) with hmax | hmax
      · exact ⟨a, hperm.mem_iff.2 List.mem_cons_self, hac.symm,
          Degree.le_iff_level.2 (hlevel.trans hmax).le⟩
      · exact ⟨b, hperm.mem_iff.2 (List.mem_cons_of_mem _ List.mem_cons_self),
          hbc.symm, Degree.le_iff_level.2 (hlevel.trans hmax).le⟩
    · exact ⟨d, hperm.mem_iff.2 (List.mem_cons_of_mem _ (List.mem_cons_of_mem _ hd)), .refl _,
        Degree.le_iff_level.2 le_rfl⟩

end FuzzyInference
