/-
Plans for a database that numbers its parameters. The statement's writing
is tidy, so numbering its placeholders gives the numbers from one to the
number of parameters, in their order, and leaves everything else as it is
read: names and texts in quotes stay what they were, whatever they hold.
-/
import RecordQuery.Proofs.Plan.Placeholders
import RecordQuery.Proofs.Statement.Tidy

namespace RecordQuery

open Writing

variable {catalog : Catalog} {dialect : Dialect} {m : Mapping} {inc : IncludeTree} {plan : Plan}

-- ======================================================== the statement

/-- A use is written as a join, with its filter behind the condition. -/
theorem Use.written_tidy (hd : dialect.Neat) (u : Use) : (u.written dialect catalog).Tidy := by
  unfold Use.written
  refine (hd.quotes.join u.step).tidy.append ?_
  split
  · next filter _ => exact (filter.written_tidy hd).behind (by decide)
  · exact .nil

theorem Plan.firm_of_mem_writtenOrder (hd : plan.dialect.Neat) :
    ∀ w ∈ plan.writtenOrder catalog m inc, w.Firm := by
  intro w hw
  unfold Plan.writtenOrder at hw
  rw [List.mem_append, List.mem_append] at hw
  rcases hw with (hroot | hkeys) | hnested
  · obtain ⟨term, -, rfl⟩ := List.mem_map.1 hroot
    exact term.written_firm hd
  · obtain ⟨f, hf, rfl⟩ := List.mem_map.1 hkeys
    unfold Plan.tieBreakers at hf
    split at hf
    · obtain ⟨key, -, rfl⟩ := List.mem_map.1 hf
      exact hd.quotes.ascending key
    · cases hf
  · obtain ⟨⟨u, term⟩, -, rfl⟩ := List.mem_map.1 hnested
    exact term.written_firm hd

theorem Plan.written_tidy (hd : plan.dialect.Neat) : (plan.written catalog m inc).Tidy := by
  have hjoins : Firm ((inc.keptUses catalog m plan.tableAlias).flatMap fun u =>
      ofText " " ++ u.written plan.dialect catalog) :=
    Tidy.eachBehind (by decide) fun u _ => u.written_tidy hd
  have hterms : (separated ", " (plan.writtenOrder catalog m inc)).Firm :=
    Firm.adjoining.separated (by decide) (Plan.firm_of_mem_writtenOrder hd)
  have hheading := Plan.heading_of_quotes hd.quotes
  have hlimited : (ofText plan.limitText).Firm := by
    refine Plan.limitText_of_adjoining Firm.adjoining plan fun text htext => ?_
    rw [ofText_append]
    exact (hd.unboundedLimit text htext).behind (by decide)
  unfold Plan.written
  refine (((hheading.tidy.append hjoins).append ?_).append ?_).append hlimited
  · split
    · next filter _ => exact (filter.written_tidy hd).behind (by decide)
    · exact .nil
  · split
    · exact .nil
    · exact hterms.tidy.behind (by decide)

/-- Statements are numbered whether they have placeholders or not. -/
theorem Flavor.bindPlaceholders_postgresql (sql : String) :
    Flavor.postgresql.dialect.bindPlaceholders sql
      = String.ofList (Placeholder.numberChars none 0 sql.toList) := by
  have hnumbered : Flavor.postgresql.dialect.bindPlaceholders sql
      = (Placeholder.number? sql).getD sql := rfl
  rw [hnumbered, Placeholder.number?]
  split
  · rfl
  · next h =>
    rw [List.contains_iff_mem] at h
    rw [Placeholder.numberChars_of_not_mem none 0 h, String.ofList_toList]
    rfl

/-- Numbering the placeholders of a plan's statement. The database reads
the numbers from one to the number of parameters, in this order, and no
placeholder without a number; it reads the same names and texts in quotes
as in the plan's statement; and with a `?` for each number it reads that
statement, character for character. -/
theorem Plan.numbers_parameters (catalog : Catalog) (m : Mapping) (inc : IncludeTree)
    (tableAlias : String) (offset : Nat) (limit : Option Nat) (plan : Plan)
    (h : Plan.build catalog Flavor.postgresql.dialect m inc tableAlias offset limit = .ok plan) :
    let bound := Piece.read (Flavor.postgresql.dialect.bindPlaceholders plan.sql).toList
    bound.filterMap Piece.digits?
        = (List.range' 1 plan.params.length).map (fun k => (toString k).toList)
      ∧ Piece.other '?' ∉ bound
      ∧ bound.filter Piece.isQuoted = (Piece.read plan.sql.toList).filter Piece.isQuoted
      ∧ bound.map Piece.unnumbered = Piece.read plan.sql.toList
      ∧ (bound.map Piece.unnumbered).flatMap Piece.text = plan.sql.toList := by
  obtain ⟨hdialect, halias⟩ := Plan.names_of_build h
  have hneat : plan.dialect.Neat := hdialect ▸ Flavor.postgresql_neat
  have hspells : (plan.written catalog m inc).Spells plan.sql plan.params := by
    have hlawful := Flavor.dialect_lawful .postgresql
    rw [← hdialect] at hlawful h
    rw [← halias] at h
    exact Plan.spells hlawful h
  obtain ⟨hparameters, hbare, hunnumbered⟩ := (Plan.written_tidy hneat).numbered 0
  rw [hspells.literals] at hparameters
  rw [hspells.chars] at hparameters hbare hunnumbered
  rw [Flavor.bindPlaceholders_postgresql, String.toList_ofList]
  refine ⟨hparameters, hbare, ?_, hunnumbered, ?_⟩
  · rw [← hunnumbered, Piece.filter_isQuoted_unnumbered]
  · rw [hunnumbered, Piece.flatMap_text_read]

/-- Question marks and quotes in names keep their places, and three
parameters get their numbers. -/
theorem Plan.numbers_parameters_of_hostile_names : ∃ plan,
    Plan.build hostileCatalog Flavor.postgresql.dialect hostileMapping hostileInclude "a'?" 2
        (some 3) = .ok plan
      ∧ plan.params = [.int64 7, .text "?", .int64 1]
      ∧ (Piece.read (Flavor.postgresql.dialect.bindPlaceholders plan.sql).toList).filterMap
          Piece.digits? = [['1'], ['2'], ['3']] := by
  refine ⟨_, rfl, rfl, ?_⟩
  exact (Plan.numbers_parameters hostileCatalog hostileMapping hostileInclude "a'?" 2 (some 3) _
    rfl).1

end RecordQuery
