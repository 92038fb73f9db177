/-
Which mappings are sealed as a catalog. Mappings are checked one after
the other, each on its own and against the models before it, and their
relations once all of them are known. Whatever the order, this accepts a
set of mappings that agree with each other and refuses every other: a
relation may lead to a mapping in front of its own, behind it, or to none.
-/
import RecordQuery.Proofs.Schema.Sealed
import RecordQuery.Repository

namespace RecordQuery

namespace Catalog

/-- Mappings that are well-formed, of different models, and whose
relations agree with the mappings that they lead to. -/
structure Coherent (mappings : List Mapping) : Prop where
  models : (mappings.map Mapping.model).Nodup
  wellFormed : ∀ m ∈ mappings, m.WellFormed
  targets : ∀ m ∈ mappings, ∀ r ∈ m.relations, ∀ target ∈ mappings, target.model = r.target →
    r.targetTable = target.table ∧ ∀ p ∈ r.pairs, target.Maps p.remote

variable {mappings : List Mapping}

/-- The mapping of a model is the one that has it, if models differ. -/
theorem lookup?_eq_some_iff (hmodels : (mappings.map Mapping.model).Nodup) {model : String}
    {m : Mapping} : lookup? mappings model = some m ↔ m ∈ mappings ∧ m.model = model := by
  constructor
  · intro h
    exact ⟨List.mem_of_find?_eq_some h, by simpa using List.find?_some h⟩
  · rintro ⟨hm, rfl⟩
    cases hfound : lookup? mappings m.model with
    | none =>
        have hno := List.find?_eq_none.1 hfound m hm
        simp at hno
    | some found =>
        have hmodel : found.model = m.model := by simpa using List.find?_some hfound
        rw [List.inj_on_of_nodup_map hmodels (List.mem_of_find?_eq_some hfound) hm hmodel]

/-- A relation has no fault if and only if it agrees with the mapping of
its target, where there is one. -/
theorem targetFault?_eq_none_iff {m : Mapping} {r : Relation} :
    targetFault? mappings m r = none
      ↔ ∀ target, lookup? mappings r.target = some target →
        r.targetTable = target.table ∧ ∀ p ∈ r.pairs, target.Maps p.remote := by
  unfold targetFault?
  cases lookup? mappings r.target with
  | none => simp
  | some target =>
      rw [Option.bind_some]
      by_cases htable : target.table = r.targetTable
      · rw [if_neg (not_not.2 htable), Option.map_eq_none_iff, List.find?_eq_none]
        simp only [Mapping.isNone_column?_iff, not_not, Option.some.injEq, forall_eq', htable,
          true_and]
      · rw [if_pos htable]
        exact ⟨nofun, fun h => absurd (h target rfl).1.symm htable⟩

/-- A list of mappings has no fault if and only if it is coherent. -/
theorem fault?_eq_none_iff : fault? mappings = none ↔ Coherent mappings := by
  unfold fault?
  simp only [Option.or_eq_none_iff, registrationFault?_eq_none_iff, Fresh.nil_taken_iff,
    List.findSome?_eq_none_iff, targetFault?_eq_none_iff]
  constructor
  · rintro ⟨⟨hwell, hmodels⟩, htargets⟩
    refine ⟨hmodels, hwell, fun m hm r hr target htarget hmodel => ?_⟩
    exact htargets m hm r hr target ((lookup?_eq_some_iff hmodels).2 ⟨htarget, hmodel⟩)
  · intro h
    refine ⟨⟨h.wellFormed, h.models⟩, fun m hm r hr target hfound => ?_⟩
    obtain ⟨htarget, hmodel⟩ := (lookup?_eq_some_iff h.models).1 hfound
    exact h.targets m hm r hr target htarget hmodel

/-- Mappings without a fault are sealed as they are. -/
theorem ofMappings_of_fault? (h : fault? mappings = none) :
    ofMappings mappings = .ok ⟨mappings, h⟩ := by
  unfold ofMappings
  split
  · rfl
  · next fault hfault =>
    rw [h] at hfault
    cases hfault

/-- Mappings with a fault are refused for it. -/
theorem ofMappings_of_some {fault : SchemaFault} (h : fault? mappings = some fault) :
    ofMappings mappings = .error fault := by
  unfold ofMappings
  split
  · next hnone =>
    rw [h] at hnone
    cases hnone
  · next found hfound =>
    rw [h] at hfound
    cases hfound
    rfl

/-- Sealing accepts exactly the coherent lists of mappings, and keeps them
in their order. Any other list is refused, and whoever asked for a
repository of it is told that the schema is invalid. -/
theorem seals_coherent (mappings : List Mapping) :
    ((∃ catalog, ofMappings mappings = .ok catalog ∧ catalog.mappings = mappings)
      ↔ Coherent mappings)
    ∧ ((∃ fault, ofMappings mappings = .error fault
        ∧ ∀ database size, Repository.build mappings database size
          = .error (Fault.schema fault.message))
      ↔ ¬ Coherent mappings) := by
  rw [← fault?_eq_none_iff]
  cases hfault : fault? mappings with
  | none =>
      have hsealed := ofMappings_of_fault? hfault
      refine ⟨⟨fun _ => rfl, fun _ => ⟨_, hsealed, rfl⟩⟩, ?_, fun h => absurd rfl h⟩
      rintro ⟨fault, hrefused, -⟩
      rw [hsealed] at hrefused
      cases hrefused
  | some fault =>
      have hrefused := ofMappings_of_some hfault
      refine ⟨⟨?_, nofun⟩, fun _ => nofun, fun _ => ⟨fault, hrefused, fun database size => ?_⟩⟩
      · rintro ⟨catalog, hsealed, -⟩
        rw [hrefused] at hsealed
        cases hsealed
      · unfold Repository.build
        rw [hrefused]

end Catalog

end RecordQuery
