import FuzzyInference.Proofs.Curve.Ramps
import FuzzyInference.Proofs.Fallible
import FuzzyInference.Variable

/-!
# Covers of an axis

Triangles that each rise over the gap the one before them falls over, between
two shoulders, divide the axis among them: at every position their degrees add
up to 1.  The falling edge of each is what the rising edge of the next leaves.
-/

namespace FuzzyInference

/-! ## Covers -/

section Cover

variable {α : Type} [Scalar α]

/-- The shapes that rise from the knot before, one over each knot: triangles
that reach to the next knot, and a shoulder over the last. -/
def coverFrom (before knot : α) : List α → Except (Fault α) (List (Shape α))
  | [] => do return [← Shape.ofRightEdge before knot 0 1]
  | after :: rest => do
      return (← Shape.ofTriangle before knot after 0 1) :: (← coverFrom knot after rest)

def cover (first second : α) (rest : List α) : Except (Fault α) (List (Shape α)) := do
  return (← Shape.ofLeftEdge first second 0 1) :: (← coverFrom first second rest)

theorem Variable.sets_of_declare {subject : String} {lower upper : α} {sets : List (FuzzySet α)}
    {v : Variable α} (h : declare subject lower upper sets = .ok v) : v.sets = sets :=
  (parts_of_declare h).2.2.2

end Cover

namespace Rational

open Scalar

variable {a b c : ℚ}

/-! ## Shapes -/

def position (ha : 0 ≤ a) : Position ℚ := ⟨a, rfl, not_lt.2 ha⟩

private theorem not_one_lt_zero : ¬ (1 : Degree ℚ) < 0 := by decide

theorem exists_isGraph (kind : CurveKind) (p : Point ℚ) (points : List (Point ℚ))
    (hascending : (p :: points).Pairwise fun p q => p.x < q.x)
    (hfits : ∀ c : Curve ℚ, c.points = p :: points → kind.Fits c) :
    ∃ s : Shape ℚ, s.IsGraph kind (p :: points) ∧
      ∀ x, (s.membership x).value = p.y.value + ramps ((p :: points).map Point.corner) x := by
  have : IsTrans (Point ℚ) fun p q => p.x < q.x := ⟨fun _ _ _ => lt_trans⟩
  have hneighbours := pairwise_iff_consecutive.1 hascending
  let c : Curve ℚ := ⟨p :: points, List.cons_ne_nil _ _, fun s hs => (hneighbours s hs).not_gt⟩
  exact ⟨.graph kind c (hfits c rfl), ⟨c, hfits c rfl, rfl, rfl⟩, membership_eq_ramps hascending⟩

theorem exists_shoulder (ha : 0 ≤ a) (hab : a < b) (y z : Degree ℚ) : ∃ s : Shape ℚ,
    s.IsGraph .trapezoid [⟨position ha, y⟩, ⟨position (ha.trans hab.le), z⟩] ∧
      ∀ x, (s.membership x).value = y.value + (z.value - y.value) * ramp a b x := by
  obtain ⟨s, hs, hvalue⟩ := exists_isGraph .trapezoid ⟨position ha, y⟩
    [⟨position (ha.trans hab.le), z⟩] (List.pairwise_pair.2 hab)
    fun c hpoints => .inr ⟨_, _, hpoints⟩
  refine ⟨s, hs, fun x => ?_⟩
  calc (s.membership x).value = y.value + ramps [⟨a, y.value⟩, ⟨b, z.value⟩] x := hvalue x
    _ = y.value + (z.value - y.value) * ramp a b x := by
      rw [ramps_cons_cons, ramps_singleton, add_zero]

theorem exists_leftEdge (ha : 0 ≤ a) (hab : a < b) :
    ∃ s, Shape.ofLeftEdge a b 0 1 = .ok s ∧ ∀ x, (s.membership x).value = 1 - ramp a b x := by
  obtain ⟨s, hs, hvalue⟩ := exists_shoulder ha hab 1 0
  refine ⟨s, Shape.ofLeftEdge_eq_ok_iff.2 ⟨not_one_lt_zero, _, _, ⟨rfl, rfl⟩, hs⟩, fun x => ?_⟩
  calc (s.membership x).value = 1 + (0 - 1) * ramp a b x := hvalue x
    _ = 1 - ramp a b x := by ring

theorem exists_rightEdge (ha : 0 ≤ a) (hab : a < b) :
    ∃ s, Shape.ofRightEdge a b 0 1 = .ok s ∧ ∀ x, (s.membership x).value = ramp a b x := by
  obtain ⟨s, hs, hvalue⟩ := exists_shoulder ha hab 0 1
  refine ⟨s, Shape.ofRightEdge_eq_ok_iff.2 ⟨not_one_lt_zero, _, _, ⟨rfl, rfl⟩, hs⟩, fun x => ?_⟩
  calc (s.membership x).value = 0 + (1 - 0) * ramp a b x := hvalue x
    _ = ramp a b x := by ring

theorem exists_triangle (ha : 0 ≤ a) (hab : a < b) (hbc : b < c) :
    ∃ s, Shape.ofTriangle a b c 0 1 = .ok s ∧
      ∀ x, (s.membership x).value = ramp a b x - ramp b c x := by
  let p := position ha
  let q := position (ha.trans hab.le)
  let r := position (ha.trans (hab.trans hbc).le)
  have hascending : [⟨p, 0⟩, ⟨q, 1⟩, ⟨r, 0⟩].Pairwise fun p q : Point ℚ => p.x < q.x :=
    .cons (by simpa using ⟨hab, hab.trans hbc⟩) (List.pairwise_pair.2 hbc)
  obtain ⟨s, hs, hvalue⟩ := exists_isGraph .triangle ⟨p, 0⟩ [⟨q, 1⟩, ⟨r, 0⟩] hascending
    fun c hpoints => ⟨_, _, _, hpoints, rfl, not_one_lt_zero⟩
  refine ⟨s, Shape.ofTriangle_eq_ok_iff.2 ⟨not_one_lt_zero, p, q, r, ⟨rfl, rfl, rfl⟩, hs⟩,
    fun x => ?_⟩
  calc (s.membership x).value = 0 + ramps [⟨a, 0⟩, ⟨b, 1⟩, ⟨c, 0⟩] x := hvalue x
    _ = ramp a b x - ramp b c x := by
      rw [ramps_cons_cons, ramps_cons_cons, ramps_singleton]
      ring

/-! ## Sums -/

/-- The shapes from a knot on share what is behind of the way to it. -/
theorem exists_coverFrom {before knot : ℚ} {rest : List ℚ} (hbefore : 0 ≤ before)
    (hknots : (before :: knot :: rest).Pairwise (· < ·)) :
    ∃ shapes, coverFrom before knot rest = .ok shapes ∧
      ∀ x, (shapes.map fun s => (s.membership x).value).sum = ramp before knot x := by
  induction rest generalizing before knot with
  | nil =>
      obtain ⟨s, hs, hvalue⟩ := exists_rightEdge hbefore (List.pairwise_pair.1 hknots)
      refine ⟨[s], by rw [coverFrom, hs]; rfl, fun x => ?_⟩
      rw [List.map_singleton, List.sum_singleton, hvalue]
  | cons after rest ih =>
      obtain ⟨hfirst, hlater⟩ := List.pairwise_cons.1 hknots
      have hknot : before < knot := hfirst knot List.mem_cons_self
      have hafter : knot < after := (List.pairwise_cons.1 hlater).1 after List.mem_cons_self
      obtain ⟨s, hs, hvalue⟩ := exists_triangle hbefore hknot hafter
      obtain ⟨shapes, hshapes, hsum⟩ := ih (hbefore.trans hknot.le) hlater
      refine ⟨s :: shapes, by rw [coverFrom, hs, hshapes]; rfl, fun x => ?_⟩
      rw [List.map_cons, List.sum_cons, hvalue, hsum, sub_add_cancel]

theorem exists_cover {first second : ℚ} {rest : List ℚ} (hfirst : 0 ≤ first)
    (hknots : (first :: second :: rest).Pairwise (· < ·)) :
    ∃ shapes, cover first second rest = .ok shapes ∧
      ∀ x, (shapes.map fun s => (s.membership x).value).sum = 1 := by
  have hsecond : first < second := (List.pairwise_cons.1 hknots).1 second List.mem_cons_self
  obtain ⟨s, hs, hvalue⟩ := exists_leftEdge hfirst hsecond
  obtain ⟨shapes, hshapes, hsum⟩ := exists_coverFrom hfirst hknots
  refine ⟨s :: shapes, by rw [cover, hs, hshapes]; rfl, fun x => ?_⟩
  rw [List.map_cons, List.sum_cons, hvalue, hsum, sub_add_cancel]

/-- Over strictly ascending knots that are not negative there is a cover, and at
every number its degrees add up to exactly 1.  So do the degrees of the states
of a variable that is declared with these shapes, in whatever order. -/
theorem cover_sums_to_one {first second : ℚ} {rest : List ℚ} (hfirst : 0 ≤ first)
    (hknots : (first :: second :: rest).Pairwise (· < ·)) :
    ∃ shapes, cover first second rest = .ok shapes ∧
      (∀ x, (shapes.map fun s => (s.membership x).value).sum = 1) ∧
      ∀ (subject : String) (lower upper : ℚ) (sets : List (FuzzySet ℚ)) (v : Variable ℚ),
        (sets.map FuzzySet.shape).Perm shapes →
          Variable.declare subject lower upper sets = .ok v →
            ∀ x, ((v.fuzzify x).map fun state => state.2.value).sum = 1 := by
  obtain ⟨shapes, hshapes, hsum⟩ := exists_cover hfirst hknots
  refine ⟨shapes, hshapes, hsum, ?_⟩
  intro subject lower upper sets v hperm hv x
  have hdegrees : ((v.fuzzify x).map fun state => state.2.value) =
      (sets.map FuzzySet.shape).map fun s => (s.membership x).value := by
    rw [Variable.fuzzify, Variable.sets_of_declare hv, List.map_map, List.map_map]
    rfl
  rw [hdegrees, (hperm.map _).sum_eq, hsum x]

def coveredRoom : Except (Fault ℚ) (Variable ℚ) := do
  let states ← ["cold", "cool", "warm", "hot"].mapM State.named
  let shapes ← cover 0 10 [25, 40]
  Variable.declare "room" 0 40 ((states.zip shapes).map fun s => ⟨s.1, s.2⟩)

theorem cover_sums_to_one_of_coveredRoom : ∃ v, coveredRoom = .ok v ∧
    ∀ x, ((v.fuzzify x).map fun state => state.2.value).sum = 1 := by
  have hknots : [(0 : ℚ), 10, 25, 40].Pairwise (· < ·) := by decide +kernel
  obtain ⟨shapes, hshapes, -, hvariable⟩ := cover_sums_to_one le_rfl hknots
  have hfour : ((cover (0 : ℚ) 10 [25, 40]).toOption.any fun l => l.length == 4) = true := by
    decide +kernel
  have hshapes4 : shapes.length = 4 := by simpa [hshapes, Except.toOption] using hfour
  obtain ⟨v, hv⟩ := Option.isSome_iff_exists.1
    (show coveredRoom.toOption.isSome = true by decide +kernel)
  obtain ⟨states, hstates, hv'⟩ := Fallible.bind_eq_ok.1 (Fallible.toOption_eq_some.1 hv)
  obtain ⟨_, hcover, hdeclare⟩ := Fallible.bind_eq_ok.1 hv'
  obtain rfl := Except.ok.inj (hshapes.symm.trans hcover)
  have hstates4 : states.length = 4 := (Fallible.mapM_eq_ok_iff.1 hstates).length_eq.symm
  refine ⟨v, Fallible.toOption_eq_some.1 hv, hvariable "room" 0 40 _ v ?_ hdeclare⟩
  rw [List.map_map]
  exact .of_eq (List.map_snd_zip (hshapes4.trans hstates4.symm).le)

end Rational

end FuzzyInference
