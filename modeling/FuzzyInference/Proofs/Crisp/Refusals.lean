import FuzzyInference.Proofs.Crisp.Readings
import FuzzyInference.Proofs.Crisp.Samples

/-!
# When a group is refused

A group is refused for what can be told from its subjects, its strengths and the
kinds and heights of its sets.  The curve that is merged from it need not be
looked at: it rises above the axis whenever some set that does is concluded, and
then every method has something to read off.
-/

namespace FuzzyInference

open Scalar Binary Aggregate

namespace Defuzzifier

section Reasons

variable {α : Type} [Scalar α]

/-- Why a group that fired is refused.  Only what is merged can be at fault:
sets of both kinds cannot be, and nothing may be left of the sets. -/
def flaw? (d : Defuzzifier) (group : List (Activation α)) (s : Label) : Option (Fault α) :=
  match d with
  | weightedAverage => none
  | merging _ =>
      if (∃ a ∈ group, a.set.shape.isSingleton = true) ∧
          ∃ a ∈ group, ¬ a.set.shape.isSingleton = true then
        some (.mixedKinds s)
      else if ∀ a ∈ group, a.strength.isZero = true ∨ a.set.shape.highest.isZero = true then
        some (.nothingFired s)
      else none

def refusal? (d : Defuzzifier) : List (Activation α) → Option (Fault α)
  | [] => some .noOutputs
  | first :: rest =>
      match rest.find? fun a => a.subject ≠ first.subject with
      | some other => some (.mixedSubjects first.subject other.subject)
      | none =>
          if ∀ a ∈ first :: rest, a.strength.isZero = true then
            some (.nothingFired first.subject)
          else d.flaw? (first :: rest) first.subject

theorem refusal?_eq (d : Defuzzifier) (group : List (Activation α)) :
    d.refusal? group =
      match groupSubject group with
      | .error fault => some fault
      | .ok s => d.flaw? group s := by
  cases group with
  | nil => rfl
  | cons first rest =>
      rw [refusal?, groupSubject]
      cases rest.find? fun a => a.subject ≠ first.subject with
      | some other => rfl
      | none =>
          simp only [List.all_eq_true]
          split_ifs <;> rfl

end Reasons

/-- What the value of a group is founded on: a positive weight, or a merged
curve that rises above the axis and a number read off it. -/
def Founded (d : Defuzzifier) (group : List (Activation Float)) (o : Outcome Float) : Prop :=
  match d with
  | merging method => ∃ domain top, groupDomain? group = some domain ∧
      greatest? ((curve domain group).map Corner.y) = some top ∧ 0 < top ∧
        method.read? domain (curve domain group) = some o.value
  | weightedAverage => 0 < (group.map fun a => a.strength.value).foldl (· + ·) 0

variable {group : List (Activation Float)} {s : Label} {domain : Domain}

theorem exists_top (hrises : ∃ p ∈ curve domain group, ¬ (p.y == 0) = true) :
    ∃ top, greatest? ((curve domain group).map Corner.y) = some top ∧ 0 < top := by
  obtain ⟨p, hp, hpy⟩ := hrises
  obtain ⟨top, htop, hgreatest, hle⟩ :=
    (rankedBy_level domain group).exists_highest (List.ne_nil_of_mem hp)
  have hheight {q : Corner Float} (hq : q ∈ curve domain group) : ∃ u, InUnit q.y u := by
    obtain ⟨x, -, rfl⟩ := List.mem_map.1 hq
    exact exists_inUnit_height group x
  obtain ⟨u, hu⟩ := hheight hp
  obtain ⟨t, ht⟩ := hheight htop
  have hut := hle p hp
  rw [hu.isValue.level_eq, ht.isValue.level_eq] at hut
  rw [hu.isValue.beq_iff isValue_zero] at hpy
  have hpos : 0 < t := (hu.nonneg.lt_of_ne' hpy).trans_le (by exact_mod_cast hut)
  exact ⟨top.y, hgreatest, (isValue_zero.lt_iff ht.isValue).2 hpos⟩

/-- Sets of one kind of which something is left have a value. -/
theorem exists_merging {method : Method} (hs : groupSubject group = .ok s)
    (hdomain : groupDomain? group = some domain)
    (hleft : ∃ a ∈ group, ¬ (a.strength.isZero = true ∨ a.set.shape.highest.isZero = true)) :
    ∃ o, (merging method).defuzzify group = .ok o ∧ (merging method).Founded group o := by
  have hrises : ∃ p ∈ curve domain group, ¬ (p.y == 0) = true := exists_height_iff.2 hleft
  have hunit : ∀ p ∈ curve domain group, ∃ u, InUnit p.y u :=
    List.forall_mem_map.2 fun x _ => exists_inUnit_height group x
  obtain ⟨top, htop, hpos⟩ := exists_top hrises
  obtain ⟨v, hread⟩ := method.exists_read? domain hunit hrises
  exact ⟨⟨s, v⟩, merging_eq_ok hs hdomain hrises hread, domain, top, hdomain, htop, hpos, hread⟩

/-- A group that fired has a weighted average, whatever its centroids are. -/
theorem exists_averageCentroid (hs : groupSubject group = .ok s)
    (hfires : ∃ a ∈ group, ¬ a.strength.isZero = true) :
    ∃ o, weightedAverage.defuzzify group = .ok o ∧ weightedAverage.Founded group o := by
  obtain ⟨a, ha, hstrength⟩ := hfires
  have hpos : 0 < (group.map fun a => a.strength.value).foldl (· + ·) 0 :=
    foldl_add_pos (List.forall_mem_map.2 fun a _ => a.strength.exists_inUnit)
      ⟨_, List.mem_map_of_mem ha, hstrength⟩
  obtain ⟨v, hv⟩ := exists_weightedMean? (group.map fun a => (a.set.centroid, a.strength.value))
    (by rwa [List.map_map])
  refine ⟨⟨s, v⟩, ?_, hpos⟩
  rw [defuzzify_eq, hs]
  change weightedAverage.outcomeOn group s = _
  rw [outcomeOn, hv]
  rfl

theorem exists_of_flaw?_eq_none {d : Defuzzifier} (hs : groupSubject group = .ok s)
    (hflaw : d.flaw? group s = none) : ∃ o, d.defuzzify group = .ok o ∧ d.Founded group o := by
  cases d with
  | weightedAverage => exact exists_averageCentroid hs (groupSubject_fires hs)
  | merging method =>
      rw [flaw?] at hflaw
      split_ifs at hflaw with hmixed hnothing
      obtain ⟨domain, hdomain⟩ :=
        Option.ne_none_iff_exists'.1 (mt groupDomain?_eq_none_iff.1 hmixed)
      push Not at hnothing
      obtain ⟨a, ha, hstrength, hhighest⟩ := hnothing
      exact exists_merging hs hdomain ⟨a, ha, not_or.2 ⟨hstrength, hhighest⟩⟩

theorem defuzzify_of_flaw?_eq_some {d : Defuzzifier} {fault : Fault Float}
    (hs : groupSubject group = .ok s) (hflaw : d.flaw? group s = some fault) :
    d.defuzzify group = .error fault := by
  rw [defuzzify_eq, hs]
  change d.outcomeOn group s = _
  cases d with
  | weightedAverage => cases hflaw
  | merging method =>
      rw [flaw?] at hflaw
      split_ifs at hflaw with hmixed hnothing
      · cases hflaw
        rw [outcomeOn, groupDomain?_eq_none_iff.2 hmixed]
      · cases hflaw
        obtain ⟨domain, hdomain⟩ :=
          Option.ne_none_iff_exists'.1 (mt groupDomain?_eq_none_iff.1 hmixed)
        have hflat : ((curve domain group).all fun p => p.y == 0) = true := by
          by_contra hrises
          obtain ⟨a, ha, hleft⟩ := exists_height_iff.1 (by simpa using hrises)
          exact hleft (hnothing a ha)
        rw [outcomeOn, hdomain]
        dsimp only
        rw [Method.value?, if_pos hflat]
        rfl

/-- In double precision a group is refused for just the reasons that are told
from its subjects, its strengths and its sets, in that order.  Every other group
has a value, and that is founded. -/
theorem defuzzify_eq_error_iff (d : Defuzzifier) (group : List (Activation Float)) :
    (∀ fault, d.defuzzify group = .error fault ↔ d.refusal? group = some fault) ∧
      (d.refusal? group = none → ∃ o, d.defuzzify group = .ok o ∧ d.Founded group o) := by
  rw [refusal?_eq]
  cases hs : groupSubject group with
  | error fault =>
      rw [defuzzify_eq, hs]
      exact ⟨fun f => ⟨fun h => congrArg some (Except.error.inj h),
        fun h => congrArg Except.error (Option.some.inj h)⟩, nofun⟩
  | ok s =>
      dsimp only
      cases hflaw : d.flaw? group s with
      | none =>
          obtain ⟨o, ho, hfounded⟩ := exists_of_flaw?_eq_none hs hflaw
          rw [ho]
          exact ⟨fun f => ⟨nofun, nofun⟩, fun _ => ⟨o, rfl, hfounded⟩⟩
      | some fault =>
          rw [defuzzify_of_flaw?_eq_some hs hflaw]
          exact ⟨fun f => ⟨fun h => congrArg some (Except.error.inj h),
            fun h => congrArg Except.error (Option.some.inj h)⟩, nofun⟩

theorem defuzzify_of_rise : ∃ group, risingTo 4 = .ok group ∧
    ∀ d ∈ weightedAverage :: Method.all.map merging,
      ∃ o, d.defuzzify group = .ok o ∧ d.Founded group o := by
  have hrun : ((risingTo 4).toOption.any fun group =>
      (weightedAverage :: Method.all.map merging).all fun d => (d.refusal? group).isNone) = true := by
    decide +kernel
  obtain ⟨group, hgroup, hnone⟩ := (Option.any_eq_true _ _).1 hrun
  rw [List.all_eq_true] at hnone
  exact ⟨group, Fallible.toOption_eq_some.1 hgroup, fun d hd =>
    (defuzzify_eq_error_iff d group).2 (Option.isNone_iff_eq_none.1 (hnone d hd))⟩

end Defuzzifier

end FuzzyInference
