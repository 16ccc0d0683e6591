import FuzzyInference.Proofs.Engine.Refusals
import FuzzyInference.Proofs.Logic.Interpretation

/-!
# Conditions cut into several

The premises of a condition can be given to several conditions of the same
rule.  Cut in front of some of its ORs, a condition becomes alternatives, of
which each holds some of its groups; where the reading of OR is associative the
rule fires as strongly as before.  Given each premise a condition of its own, it
does so for every reading, because the rule then reads the very statement that
the condition did.
-/

namespace FuzzyInference

open Fallible

section Pieces

variable {α : Type} [Scalar α]

/-! ## Pieces of a condition -/

namespace Premise

def opened : List (Premise α) → List (Premise α)
  | [] => []
  | first :: rest => { first with connective := .opening } :: rest

/-- The pieces hold the premises in their order, each once, and every piece
after the first starts with an OR. -/
structure IsCut (premises : List (Premise α)) (pieces : List (List (Premise α))) : Prop where
  flatten : pieces.flatten = premises
  ne_nil : ∀ piece ∈ pieces, piece ≠ []
  starts : ∀ piece ∈ pieces.tail, ∀ first ∈ piece.head?, first.connective = .or

theorem map_subject_opened (premises : List (Premise α)) :
    (opened premises).map (fun p => p.proposition.subject) =
      premises.map fun p => p.proposition.subject := by
  cases premises <;> rfl

variable {premises piece : List (Premise α)} {pieces : List (List (Premise α))}

theorem IsCut.subset_tail (h : IsCut premises pieces) (hpiece : piece ∈ pieces) :
    piece.tail ⊆ premises.tail := by
  have hne := h.ne_nil
  rw [← h.flatten]
  cases pieces with
  | nil => simp at hpiece
  | cons first rest =>
      cases first with
      | nil => exact absurd rfl (hne [] List.mem_cons_self)
      | cons p tail =>
          rw [List.flatten_cons, List.cons_append, List.tail_cons]
          rcases List.mem_cons.1 hpiece with rfl | hpiece
          · exact List.subset_append_left _ _
          · intro later hlater
            have hmem := List.mem_flatten_of_mem hpiece (List.mem_of_mem_tail hlater)
            exact List.mem_append_right tail hmem

theorem IsCut.wellFormed_opened (h : IsCut premises pieces) (hpiece : piece ∈ pieces)
    (hwell : Connective.WellFormed (premises.map connective)) :
    Connective.WellFormed ((opened piece).map connective) := by
  have hsub := h.subset_tail hpiece
  cases piece with
  | nil => exact absurd rfl (h.ne_nil [] hpiece)
  | cons first rest =>
      refine ⟨rfl, fun hopening => ?_⟩
      cases premises with
      | nil => exact hwell.elim
      | cons head tail => exact hwell.2 (List.map_subset _ hsub hopening)

end Premise

namespace Condition

def alternatives : List (Condition α) → List (Condition α)
  | [] => []
  | first :: rest => first.attach .opening :: rest.map fun c => c.attach .or

/-- A condition of full weight for each piece, as alternatives. -/
def ofPieces (pieces : List (List (Premise α))) : Except (Fault α) (List (Condition α)) := do
  return alternatives (← pieces.mapM fun piece => ofPremises (Premise.opened piece) 1)

/-- A condition of full weight for each premise, in the place that the premise
had. -/
def ofEach (premises : List (Premise α)) : Except (Fault α) (List (Condition α)) :=
  premises.mapM fun p => do
    return (← ofPremises (Premise.opened [p]) 1).attach p.connective

/-- Rules that conclude something can be made of the one condition and of the
others, and they fire alike: equally strongly where the facts are known that the
condition asks for, and not at all for the same reason where they are not. -/
def FiresAs (algebra : Algebra) (c : Condition α) (conditions : List (Condition α)) : Prop :=
  ∀ (label : Label) (conclusions : List (Conclusion α)), conclusions ≠ [] →
    ∃ rule rule', Rule.ofClauses label [c] conclusions = .ok rule ∧
      Rule.ofClauses label conditions conclusions = .ok rule' ∧
      ∀ facts, rule'.firingStrength facts algebra = rule.firingStrength facts algebra ∧
        ((∀ t ∈ c.subjects, t ∈ facts.labels) →
          ∃ d, rule.firingStrength facts algebra = .ok d)

theorem ofPremises_eq_ok_iff {premises : List (Premise α)} {weight : Degree α} {c : Condition α} :
    ofPremises premises weight = .ok c ↔ c.connective = .opening ∧ c.premises = premises ∧
      c.weight = weight ∧ Connective.WellFormed (premises.map Premise.connective) := by
  unfold ofPremises
  by_cases hnil : premises = []
  · rw [if_pos hnil]
    refine iff_of_false (fun h => nomatch h) fun h => ?_
    rw [hnil] at h
    exact h.2.2.2
  · rw [if_neg hnil]
    split
    · next fault hfault =>
        refine iff_of_false (fun h => nomatch h) fun h => ?_
        rw [ConnectiveFault.find?_eq_none_iff.2 h.2.2.2] at hfault
        cases hfault
    · next hnone =>
        rw [Except.ok.injEq]
        constructor
        · rintro rfl
          exact ⟨rfl, rfl, rfl, ConnectiveFault.find?_eq_none_iff.1 hnone⟩
        · rintro ⟨hconnective, rfl, rfl, -⟩
          cases c
          cases hconnective
          rfl

theorem exists_ofPremises {premises : List (Premise α)} (weight : Degree α)
    (h : Connective.WellFormed (premises.map Premise.connective)) :
    ∃ c, ofPremises premises weight = .ok c :=
  ⟨⟨.opening, premises, weight, h⟩, ofPremises_eq_ok_iff.2 ⟨rfl, rfl, rfl, h⟩⟩

end Condition

theorem Rule.ofClauses_eq_ok_iff {label : Label} {conditions : List (Condition α)}
    {conclusions : List (Conclusion α)} {rule : Rule α} :
    ofClauses label conditions conclusions = .ok rule ↔
      rule.label = label ∧ rule.conditions = conditions ∧ rule.conclusions = conclusions := by
  unfold ofClauses
  constructor
  · intro h
    split at h
    · cases h
    · split at h
      · cases h
      · cases h
        exact ⟨rfl, rfl, rfl⟩
  · rintro ⟨rfl, rfl, rfl⟩
    have hcomplete : ¬ (rule.conditions = [] ∨ rule.conclusions = []) := by
      rintro (hnil | hnil)
      · obtain ⟨first, rest, hconditions, -⟩ := rule.wellFormed.exists_cons
        exact List.cons_ne_nil first rest (hconditions.symm.trans hnil)
      · exact rule.concludes hnil
    rw [dif_neg hcomplete]
    split
    · next fault hfault =>
        rw [ConnectiveFault.find?_eq_none_iff.2 rule.wellFormed] at hfault
        cases hfault
    · rfl

theorem Rule.exists_ofClauses (label : Label) {conditions : List (Condition α)}
    {conclusions : List (Conclusion α)}
    (h : Connective.WellFormed (conditions.map Condition.connective)) (hne : conclusions ≠ []) :
    ∃ rule, ofClauses label conditions conclusions = .ok rule ∧ rule.conditions = conditions :=
  ⟨⟨label, conditions, conclusions, h, hne⟩, ofClauses_eq_ok_iff.2 ⟨rfl, rfl, rfl⟩, rfl⟩

/-! ## Full weight -/

variable {algebra : Algebra} {facts : Facts α} {c : Condition α} {rule : Rule α}

theorem Condition.evaluate_of_full (hone : ∀ a : Degree α, a * 1 = a) (hweight : c.weight = 1) :
    c.evaluate facts algebra = (c.premises.mapM fun p => p.evaluate facts) >>= algebra.evaluate := by
  rw [Condition.evaluate, hweight]
  simp only [hone, bind_pure]

theorem Rule.firingStrength_of_single (hconditions : rule.conditions = [c])
    (hopening : c.connective = .opening) :
    rule.firingStrength facts algebra = c.evaluate facts algebra := by
  rw [Rule.firingStrength, hconditions, List.mapM_cons, List.mapM_nil, hopening]
  cases c.evaluate facts algebra <;> rfl

/-! ## A condition for each premise -/

/-- A rule reads conditions of one premise each as a condition reads the
premises. -/
theorem Rule.firingStrength_of_each (hone : ∀ a : Degree α, a * 1 = a)
    {premises : List (Premise α)}
    (h : List.Forall₂ (fun p (c : Condition α) => c.connective = p.connective ∧
      c.premises = Premise.opened [p] ∧ c.weight = 1) premises rule.conditions) :
    rule.firingStrength facts algebra =
      (premises.mapM fun p => p.evaluate facts) >>= algebra.evaluate := by
  rw [Rule.firingStrength]
  refine congrArg (· >>= _) (mapM_congr_of_forall₂ (h.flip.imp ?_))
  rintro c p ⟨hconnective, hpremises, hweight⟩
  rw [Condition.evaluate_of_full hone hweight, hpremises, hconnective, Premise.evaluate]
  rw [Premise.opened, List.mapM_cons, List.mapM_nil, Premise.evaluate]
  cases p.proposition.evaluate facts <;> rfl

theorem Condition.firesAs_ofEach [TotalNorms α] (hone : ∀ a : Degree α, a * 1 = a)
    (algebra : Algebra) {premises : List (Premise α)}
    (hc : Condition.ofPremises premises 1 = .ok c) :
    ∃ conditions, Condition.ofEach premises = .ok conditions ∧ c.FiresAs algebra conditions := by
  obtain ⟨hopening, rfl, hweight, hwell⟩ := Condition.ofPremises_eq_ok_iff.1 hc
  obtain ⟨conditions, hconditions⟩ : ∃ conditions, Condition.ofEach c.premises = .ok conditions := by
    refine exists_mapM fun p _ => ?_
    have hsingle : Connective.WellFormed ((Premise.opened [p]).map Premise.connective) :=
      ⟨rfl, List.not_mem_nil⟩
    obtain ⟨own, hown⟩ := Condition.exists_ofPremises 1 hsingle
    exact ⟨_, bind_eq_ok.2 ⟨own, hown, rfl⟩⟩
  have hparts : List.Forall₂ (fun p (c : Condition α) => c.connective = p.connective ∧
      c.premises = Premise.opened [p] ∧ c.weight = 1) c.premises conditions := by
    refine (mapM_eq_ok_iff.1 hconditions).imp fun p c' hc' => ?_
    obtain ⟨own, hown, hattached⟩ := bind_eq_ok.1 hc'
    obtain ⟨-, hpremises, hfull, -⟩ := Condition.ofPremises_eq_ok_iff.1 hown
    cases hattached
    exact ⟨rfl, hpremises, hfull⟩
  have hconnectives : conditions.map Condition.connective = c.premises.map Premise.connective :=
    map_eq_of_forall₂ hparts fun _ _ _ h => h.1
  refine ⟨conditions, hconditions, fun label conclusions hne => ?_⟩
  have hwhole : Connective.WellFormed ([c].map Condition.connective) :=
    ⟨hopening, List.not_mem_nil⟩
  obtain ⟨rule, hrule, hone'⟩ := Rule.exists_ofClauses label hwhole hne
  obtain ⟨rule', hrule', heach⟩ := Rule.exists_ofClauses label (hconnectives ▸ hwell) hne
  refine ⟨rule, rule', hrule, hrule', fun facts => ?_⟩
  have hsingle : rule.firingStrength facts algebra = c.evaluate facts algebra :=
    Rule.firingStrength_of_single hone' hopening
  constructor
  · rw [hsingle, Condition.evaluate_of_full hone hweight,
      Rule.firingStrength_of_each hone (heach ▸ hparts)]
  · rw [hsingle]
    exact fun hknown => c.exists_evaluate hknown algebra

/-! ## Alternatives -/

theorem Premise.mapM_evaluate_opened {premises : List (Premise α)} {first : Clause α}
    {rest : List (Clause α)}
    (h : premises.mapM (fun p => p.evaluate facts) = .ok (first :: rest)) :
    (opened premises).mapM (fun p => p.evaluate facts) =
      .ok (⟨.opening, first.degree⟩ :: rest) := by
  cases mapM_eq_ok_iff.1 h with
  | @cons p _ _ _ hfirst hrest =>
      obtain ⟨degree, hdegree, hclause⟩ := bind_eq_ok.1 hfirst
      cases hclause
      exact mapM_eq_ok_iff.2 (.cons (bind_eq_ok.2 ⟨degree, hdegree, rfl⟩) hrest)

theorem Condition.exists_evaluate_piece (hone : ∀ a : Degree α, a * 1 = a)
    {meet join : Degree α → Degree α → Degree α}
    (hmeet : Interprets Eq meet algebra.conjunction.evaluate)
    (hjoin : Interprets Eq join algebra.disjunction.evaluate) {piece : List (Premise α)}
    {clauses : List (Clause α)} (hclauses : piece.mapM (fun p => p.evaluate facts) = .ok clauses)
    (hc : Condition.ofPremises (Premise.opened piece) 1 = .ok c) :
    ∃ d, c.evaluate facts algebra = .ok d ∧
      joinedTwice? meet join (Clause.degreeGroups clauses) = some d := by
  obtain ⟨-, hpremises, hweight, hwell⟩ := Condition.ofPremises_eq_ok_iff.1 hc
  cases clauses with
  | nil =>
      rw [List.forall₂_nil_right_iff.1 (mapM_eq_ok_iff.1 hclauses)] at hwell
      exact hwell.elim
  | cons first rest =>
      have hopened := Premise.mapM_evaluate_opened hclauses
      have hconnectives := Premise.map_connective hopened
      obtain ⟨d, hd, hjoined⟩ := Algebra.exists_evaluate_joined hmeet hjoin (hconnectives ▸ hwell)
      have hgroups : Clause.degreeGroups (⟨.opening, first.degree⟩ :: rest) =
          Clause.degreeGroups (first :: rest) := by
        apply Clause.degreeGroups_cons_congr
        rfl
      rw [hgroups] at hjoined
      refine ⟨d, ?_, hjoined⟩
      rw [Condition.evaluate_of_full hone hweight, hpremises, hopened]
      exact hd

/-- The degrees of the pieces are those of the parts of the statement that they
make up. -/
theorem Condition.exists_evaluate_pieces (hone : ∀ a : Degree α, a * 1 = a)
    {meet join : Degree α → Degree α → Degree α}
    (hmeet : Interprets Eq meet algebra.conjunction.evaluate)
    (hjoin : Interprets Eq join algebra.disjunction.evaluate) {pieces : List (List (Premise α))}
    {parts : List (List (Clause α))} {conditions : List (Condition α)}
    (hparts : pieces.mapM (fun piece => piece.mapM fun p => p.evaluate facts) = .ok parts)
    (hconditions : pieces.mapM (fun piece => ofPremises (Premise.opened piece) 1) =
      .ok conditions) :
    ∃ degrees, List.Forall₂ (fun c d => c.evaluate facts algebra = .ok d) conditions degrees ∧
      (parts.map Clause.degreeGroups).filterMap (joinedTwice? meet join) = degrees := by
  rw [mapM_eq_ok_iff] at hparts hconditions
  induction hparts generalizing conditions with
  | nil =>
      rw [List.forall₂_nil_left_iff.1 hconditions]
      exact ⟨[], .nil, rfl⟩
  | cons hclauses _ ih =>
      cases hconditions with
      | cons hc hrest =>
          obtain ⟨d, hd, hjoined⟩ := exists_evaluate_piece hone hmeet hjoin hclauses hc
          obtain ⟨degrees, hdegrees, hfilter⟩ := ih hrest
          refine ⟨d :: degrees, .cons hd hdegrees, ?_⟩
          rw [List.map_cons, List.filterMap_cons_some hjoined, hfilter]

/-- A rule joins the degrees of its alternatives. -/
theorem Rule.firingStrength_of_alternatives {conditions : List (Condition α)}
    {degrees : List (Degree α)} (hconditions : rule.conditions = Condition.alternatives conditions)
    (hdegrees : List.Forall₂ (fun c d => c.evaluate facts algebra = .ok d) conditions degrees) :
    rule.firingStrength facts algebra = Algebra.reduce algebra.disjunction.evaluate degrees := by
  rw [← Algebra.evaluate_chain_or, Rule.firingStrength, hconditions]
  suffices hclauses : (Condition.alternatives conditions).mapM (fun c => do
      return Clause.mk c.connective (← c.evaluate facts algebra)) =
        .ok (Clause.chain .or degrees) by
    rw [hclauses]
    rfl
  cases hdegrees with
  | nil => rfl
  | cons hfirst hrest =>
      refine mapM_eq_ok_iff.2 (.cons (bind_eq_ok.2 ⟨_, hfirst, rfl⟩) ?_)
      rw [List.forall₂_map_left_iff, List.forall₂_map_right_iff]
      refine hrest.imp fun _ d hd => ?_
      exact bind_eq_ok.2 ⟨d, hd, rfl⟩

theorem Condition.premiseSubjects_of_pieces {pieces : List (List (Premise α))}
    {conditions : List (Condition α)}
    (hconditions : pieces.mapM (fun piece => ofPremises (Premise.opened piece) 1) =
      .ok conditions) (hrule : rule.conditions = alternatives conditions) :
    rule.premiseSubjects = pieces.flatten.map fun p => p.proposition.subject := by
  have hsubjects : (alternatives conditions).flatMap subjects = conditions.flatMap subjects := by
    cases conditions with
    | nil => rfl
    | cons first rest =>
        rw [alternatives, List.flatMap_cons, List.flatMap_map, List.flatMap_cons]
        rfl
  have heach : conditions.map subjects =
      pieces.map fun piece => piece.map fun p => p.proposition.subject := by
    refine map_eq_of_forall₂ (mapM_eq_ok_iff.1 hconditions) fun piece _ c hc => ?_
    obtain ⟨-, hpremises, -⟩ := ofPremises_eq_ok_iff.1 hc
    rw [subjects, hpremises, Premise.map_subject_opened]
  rw [Rule.premiseSubjects, hrule, hsubjects, List.flatMap_def, heach, List.map_flatten]

theorem Condition.wellFormed_alternatives {conditions : List (Condition α)}
    (hne : conditions ≠ []) :
    Connective.WellFormed ((alternatives conditions).map connective) := by
  cases conditions with
  | nil => exact absurd rfl hne
  | cons first rest =>
      refine ⟨rfl, fun hopening => ?_⟩
      rw [List.map_map] at hopening
      obtain ⟨_, -, hor⟩ := List.mem_map.1 hopening
      cases hor

section Associative

variable {meet join : Degree α → Degree α → Degree α} [Std.Associative join]
  {premises : List (Premise α)} {pieces : List (List (Premise α))} {conditions : List (Condition α)}

theorem Premise.exists_mapM_pieces {clauses : List (Clause α)}
    (hclauses : pieces.flatten.mapM (fun p => p.evaluate facts) = .ok clauses) :
    ∃ parts, pieces.mapM (fun piece => piece.mapM fun p => p.evaluate facts) = .ok parts ∧
      parts.flatten = clauses := by
  have hpremise : ∀ p ∈ pieces.flatten, ∃ clause, p.evaluate facts = .ok clause := by
    intro p hp
    obtain ⟨clause, -, hclause⟩ := exists_mem_of_forall₂ (mapM_eq_ok_iff.1 hclauses) hp
    exact ⟨clause, hclause⟩
  obtain ⟨parts, hparts⟩ : ∃ parts,
      pieces.mapM (fun piece => piece.mapM fun p => p.evaluate facts) = .ok parts :=
    exists_mapM fun piece hpiece =>
      exists_mapM fun p hp => hpremise p (List.mem_flatten_of_mem hpiece hp)
  refine ⟨parts, hparts, ?_⟩
  have hflat : pieces.flatten.mapM (fun p => p.evaluate facts) = .ok parts.flatten :=
    mapM_eq_ok_iff.2 (List.rel_flatten ((mapM_eq_ok_iff.1 hparts).imp fun _ _ =>
      mapM_eq_ok_iff.1))
  rw [hclauses] at hflat
  exact (Except.ok.inj hflat).symm

theorem Premise.IsCut.head?_connective (h : IsCut premises pieces) {parts : List (List (Clause α))}
    (hparts : pieces.mapM (fun piece => piece.mapM fun p => p.evaluate facts) = .ok parts) :
    ∀ part ∈ parts.tail, (part.map Clause.connective).head? = some .or := by
  have hconnectives : parts.map (fun part => part.map Clause.connective) =
      pieces.map fun piece => piece.map connective :=
    map_eq_of_forall₂ (mapM_eq_ok_iff.1 hparts) fun _ _ _ => map_connective
  have hpieces : ∀ connectives ∈ (pieces.map fun piece => piece.map connective).tail,
      connectives.head? = some .or := by
    rw [← List.map_tail, List.forall_mem_map]
    intro piece hpiece
    have hne := h.ne_nil piece (List.mem_of_mem_tail hpiece)
    rw [List.head?_map, List.head?_eq_some_head hne]
    exact congrArg some (h.starts piece hpiece _ (List.head?_eq_some_head hne))
  rwa [← hconnectives, ← List.map_tail, List.forall_mem_map] at hpieces

/-- The alternatives come to what the whole condition does. -/
theorem Rule.firingStrength_of_pieces (hone : ∀ a : Degree α, a * 1 = a)
    (hmeet : Interprets Eq meet algebra.conjunction.evaluate)
    (hjoin : Interprets Eq join algebra.disjunction.evaluate)
    (hcut : Premise.IsCut premises pieces)
    (hwell : Connective.WellFormed (premises.map Premise.connective))
    (hconditions : pieces.mapM (fun piece => Condition.ofPremises (Premise.opened piece) 1) =
      .ok conditions) (hrule : rule.conditions = Condition.alternatives conditions)
    {clauses : List (Clause α)}
    (hclauses : premises.mapM (fun p => p.evaluate facts) = .ok clauses) :
    rule.firingStrength facts algebra = algebra.evaluate clauses := by
  obtain ⟨parts, hparts, rfl⟩ := Premise.exists_mapM_pieces (hcut.flatten ▸ hclauses)
  have hwhole := Premise.map_connective hclauses
  obtain ⟨d, hd, hjoined⟩ := Algebra.exists_evaluate_joined hmeet hjoin (hwhole ▸ hwell)
  obtain ⟨degrees, hdegrees, hfilter⟩ :=
    Condition.exists_evaluate_pieces hone hmeet hjoin hparts hconditions
  rw [Clause.degreeGroups_flatten (hcut.head?_connective hparts), joinedTwice?_flatten,
    hfilter] at hjoined
  have hne : degrees ≠ [] := by
    rintro rfl
    cases hjoined
  have hequal : List.Forall₂ Eq degrees degrees := List.forall₂_same.2 fun _ _ => rfl
  obtain ⟨d', _, hd', hk, rfl⟩ := hjoin.reduce hequal hne
  rw [firingStrength_of_alternatives hrule hdegrees, hd', hd]
  exact congrArg Except.ok (Option.some.inj (hk.symm.trans hjoined))

theorem Condition.firesAs_ofPieces [TotalNorms α] (hone : ∀ a : Degree α, a * 1 = a)
    (hmeet : Interprets Eq meet algebra.conjunction.evaluate)
    (hjoin : Interprets Eq join algebra.disjunction.evaluate)
    (hc : ofPremises premises 1 = .ok c) (hcut : Premise.IsCut premises pieces) :
    ∃ conditions, ofPieces pieces = .ok conditions ∧ c.FiresAs algebra conditions := by
  obtain ⟨hopening, rfl, hweight, hwell⟩ := ofPremises_eq_ok_iff.1 hc
  obtain ⟨conditions, hconditions⟩ : ∃ conditions,
      pieces.mapM (fun piece => ofPremises (Premise.opened piece) 1) = .ok conditions :=
    exists_mapM fun piece hpiece => exists_ofPremises 1 (hcut.wellFormed_opened hpiece hwell)
  have hne : conditions ≠ [] := by
    rintro rfl
    have hnil := hcut.flatten
    rw [List.forall₂_nil_right_iff.1 (mapM_eq_ok_iff.1 hconditions)] at hnil
    rw [← hnil] at hwell
    exact hwell.elim
  refine ⟨alternatives conditions, bind_eq_ok.2 ⟨conditions, hconditions, rfl⟩,
    fun label conclusions hconcludes => ?_⟩
  have hclause : Connective.WellFormed ([c].map Condition.connective) :=
    ⟨hopening, List.not_mem_nil⟩
  obtain ⟨rule, hrule, hwhole⟩ := Rule.exists_ofClauses label hclause hconcludes
  obtain ⟨rule', hrule', hpieces⟩ :=
    Rule.exists_ofClauses label (wellFormed_alternatives hne) hconcludes
  refine ⟨rule, rule', hrule, hrule', fun facts => ?_⟩
  have hsingle : rule.firingStrength facts algebra = c.evaluate facts algebra :=
    Rule.firingStrength_of_single hwhole hopening
  have hsubjects : rule'.premiseSubjects = c.subjects := by
    rw [premiseSubjects_of_pieces hconditions hpieces, hcut.flatten, subjects]
  rw [hsingle]
  refine ⟨?_, fun hknown => c.exists_evaluate hknown algebra⟩
  -- both ask for the same facts, so they miss the same one first
  cases hmissing : facts.firstMissing? c.subjects with
  | some s =>
      have hfault := c.fault?_evaluate facts algebra
      have hfault' := rule'.fault?_firingStrength facts algebra
      rw [hmissing, Option.map_some, fault?_eq_some] at hfault
      rw [hsubjects, hmissing, Option.map_some, fault?_eq_some] at hfault'
      rw [hfault, hfault']
  | none =>
      obtain ⟨d, hd⟩ := c.exists_evaluate (Facts.firstMissing?_eq_none.1 hmissing) algebra
      rw [evaluate_of_full hone hweight] at hd ⊢
      obtain ⟨clauses, hclauses, hd⟩ := bind_eq_ok.1 hd
      rw [Rule.firingStrength_of_pieces hone hmeet hjoin hcut hwell hconditions hpieces hclauses,
        hclauses]
      rfl

end Associative

end Pieces

/-! ## The three cuts -/

/-- A condition of full weight can be cut in front of any of its ORs into
alternatives without a change in how strongly its rule fires: in exact
arithmetic for all readings of AND and OR, and in double precision where AND is
the minimum and OR the maximum.  In double precision each premise can be given a
condition of its own for all readings. -/
theorem Condition.firesAs_cut :
    (∀ (algebra : Algebra) (premises : List (Premise ℚ)) (c : Condition ℚ)
      (pieces : List (List (Premise ℚ))), ofPremises premises 1 = .ok c →
      Premise.IsCut premises pieces →
      ∃ conditions, ofPieces pieces = .ok conditions ∧ c.FiresAs algebra conditions) ∧
    (∀ (premises : List (Premise Float)) (c : Condition Float)
      (pieces : List (List (Premise Float))), ofPremises premises 1 = .ok c →
      Premise.IsCut premises pieces →
      ∃ conditions, ofPieces pieces = .ok conditions ∧
        c.FiresAs Algebra.standard conditions) ∧
    ∀ (algebra : Algebra) (premises : List (Premise Float)) (c : Condition Float),
      ofPremises premises 1 = .ok c →
      ∃ conditions, ofEach premises = .ok conditions ∧ c.FiresAs algebra conditions := by
  refine ⟨fun algebra premises c pieces hc hcut => ?_, fun premises c pieces hc hcut => ?_,
    fun algebra premises c hc => ?_⟩
  · exact firesAs_ofPieces Rational.mul_one algebra.conjunction.interprets_exact
      algebra.disjunction.interprets_exact hc hcut
  · have hmin : Interprets Eq min (TNorm.minimum.evaluate (α := Float)) :=
      .of_eq_ok fun _ _ => rfl
    have hmax : Interprets Eq max (TConorm.maximum.evaluate (α := Float)) :=
      .of_eq_ok fun _ _ => rfl
    exact firesAs_ofPieces Degree.mul_one hmin hmax hc hcut
  · exact firesAs_ofEach Degree.mul_one algebra hc

section Ventilation

variable {α : Type} [Scalar α]

def ventilation : Except (Fault α) (Proposition α × Proposition α × Proposition α) := do
  let cold ← FuzzySet.named "cold" (← Shape.ofLeftEdge 0 (Scalar.ofNat 15) 0 1)
  let warm ← FuzzySet.named "warm" (← Shape.ofRightEdge (Scalar.ofNat 15) (Scalar.ofNat 30) 0 1)
  let ajar ← FuzzySet.named "open" (← Shape.ofRightEdge 0 (Scalar.ofNat 8) 0 1)
  let room ← Variable.declare "room" 0 (Scalar.ofNat 40) [cold, warm]
  let window ← Variable.declare "window" 0 (Scalar.ofNat 9) [ajar]
  return (← room.is "warm", ← window.isNot "open", ← room.is "cold")

def ventilationPremises (p q r : Proposition α) : List (Premise α) :=
  [⟨.opening, p⟩, ⟨.and, q⟩, ⟨.or, r⟩]

theorem exists_condition_ventilation (p q r : Proposition α) :
    ∃ c, Condition.ofPremises (ventilationPremises p q r) 1 = .ok c :=
  Condition.exists_ofPremises 1 ⟨rfl, by simp⟩

theorem isCut_ventilation (p q r : Proposition α) :
    Premise.IsCut (ventilationPremises p q r) [[⟨.opening, p⟩, ⟨.and, q⟩], [⟨.or, r⟩]] :=
  ⟨rfl, by simp, by simp⟩

end Ventilation

theorem Condition.firesAs_cut_of_ventilation :
    (∃ p q r c conditions, (ventilation (α := ℚ)) = .ok (p, q, r) ∧
      ofPremises (ventilationPremises p q r) 1 = .ok c ∧
      ofPieces [[⟨.opening, p⟩, ⟨.and, q⟩], [⟨.or, r⟩]] = .ok conditions ∧
      c.FiresAs ⟨.einstein, .hamacher⟩ conditions) ∧
    ∃ p q r c conditions conditions', (ventilation (α := Float)) = .ok (p, q, r) ∧
      ofPremises (ventilationPremises p q r) 1 = .ok c ∧
      ofPieces [[⟨.opening, p⟩, ⟨.and, q⟩], [⟨.or, r⟩]] = .ok conditions ∧
      c.FiresAs .standard conditions ∧
      ofEach (ventilationPremises p q r) = .ok conditions' ∧
      c.FiresAs ⟨.einstein, .hamacher⟩ conditions' := by
  have hexact : (ventilation (α := ℚ)).toOption.isSome := by decide +kernel
  have hbinary : (ventilation (α := Float)).toOption.isSome := by decide +kernel
  rw [Option.isSome_iff_exists] at hexact hbinary
  obtain ⟨⟨p, q, r⟩, hexact⟩ := hexact
  obtain ⟨⟨p', q', r'⟩, hbinary⟩ := hbinary
  obtain ⟨c, hc⟩ := exists_condition_ventilation p q r
  obtain ⟨c', hc'⟩ := exists_condition_ventilation p' q' r'
  obtain ⟨cut, hcut, hfires⟩ := firesAs_cut.1 _ _ c _ hc (isCut_ventilation p q r)
  obtain ⟨cut', hcut', hfires'⟩ := firesAs_cut.2.1 _ c' _ hc' (isCut_ventilation p' q' r')
  obtain ⟨each, heach, hfires''⟩ := firesAs_cut.2.2 _ _ c' hc'
  exact ⟨⟨p, q, r, c, cut, toOption_eq_some.1 hexact, hc, hcut, hfires⟩,
    p', q', r', c', cut', each, toOption_eq_some.1 hbinary, hc', hcut', hfires', heach, hfires''⟩

end FuzzyInference
