/-
Plans with other names. Reading the quoted names of a plan's statement and
writing them in another way gives the statement that the same request has
in a dialect that writes names in that way. So whatever the names hold,
what stands outside of them in a statement is not theirs: it is what the
statement would have with any other names in their places.
-/
import RecordQuery.Proofs.Plan.Spelling
import RecordQuery.Proofs.Statement.Renamed

namespace RecordQuery

open Writing

variable {mark : Char} {spell : String → String} {d : Dialect} {catalog : Catalog} {m : Mapping}
  {inc : IncludeTree}

-- =============================================================== columns

theorem ColumnRef.select_renamed (hd : d.Marks mark) (c : ColumnRef) :
    Renamed mark spell (ofText (c.select d)) (ofText (c.select (d.naming spell))) := by
  unfold ColumnRef.select
  cases c.output with
  | none =>
      rw [String.append_empty, String.append_empty]
      exact hd.tableColumn _ _
  | some output =>
      simp only [ofText_append]
      exact (hd.tableColumn _ _).joined hd.isQuote (by decide) (hd.column output)

theorem StructureColumn.ascending_renamed (hd : d.Marks mark) (key : StructureColumn) :
    Renamed mark spell (ofText (key.ascending d).sql)
      (ofText (key.ascending (d.naming spell)).sql) := by
  simp only [StructureColumn.ascending, ofText_append]
  exact (hd.tableColumn _ _).followed hd.isQuote (by decide)

-- ================================================================= joins

theorem Step.condition_renamed (hd : d.Marks mark) (step : Step) (pair : JoinPair) :
    Renamed mark spell (ofText (step.condition d pair))
      (ofText (step.condition (d.naming spell) pair)) := by
  unfold Step.condition
  rw [String.append_assoc, String.append_assoc]
  simp only [ofText_append]
  exact (hd.tableColumn _ _).joined hd.isQuote (by decide) (hd.tableColumn _ _)

theorem Step.join_renamed (hd : d.Marks mark) (step : Step) :
    Renamed mark spell (ofText (step.join d none).sql)
      (ofText (step.join (d.naming spell) none).sql) := by
  have hconditions : Renamed mark spell
      (ofText (" AND ".intercalate (step.relation.pairs.map (step.condition d))))
      (ofText
        (" AND ".intercalate (step.relation.pairs.map (step.condition (d.naming spell))))) := by
    rw [ofText_intercalate, ofText_intercalate, List.map_map, List.map_map]
    exact .separated hd.isQuote (by decide)
      (Renamed.each fun pair _ => step.condition_renamed hd pair)
  have hon := (hd.table step.pathAlias).joined (t := " ON ") hd.isQuote (by decide) hconditions
  have has := (hd.table step.target.table).joined (t := " AS ") hd.isQuote (by decide) hon
  simp only [Step.join, String.append_empty, ofText_append, List.append_assoc]
  exact (Follows.behind hd.isQuote (by decide) has).renamed

theorem Use.written_renamed (hd : d.Marks mark) (u : Use) :
    Renamed mark spell (u.written d catalog) (u.written (d.naming spell) catalog) := by
  unfold Use.written
  cases u.filter with
  | none =>
      rw [List.append_nil, List.append_nil]
      exact u.step.join_renamed hd
  | some filter =>
      exact (u.step.join_renamed hd).joined hd.isQuote (by decide) (filter.written_renamed hd)

-- ================================================================ plans

/-- Plans that differ in the names in their texts alone. -/
structure Plan.Renames (spell : String → String) (p q : Plan) : Prop where
  dialect : q.dialect = p.dialect.naming spell
  table : q.table = p.table
  tableAlias : q.tableAlias = p.tableAlias
  limit : q.limit = p.limit
  offset : q.offset = p.offset
  respelled : p.Respelled q

namespace Plan.Renames

variable {p q : Plan}

theorem of_build {tableAlias : String} {offset : Nat} {limit : Option Nat}
    (hp : Plan.build catalog d m inc tableAlias offset limit = .ok p)
    (hq : Plan.build catalog (d.naming spell) m inc tableAlias offset limit = .ok q)
    (h : p.Respelled q) : p.Renames spell q := by
  obtain ⟨_, _, _, _, _, _, _, -, -, -, -, -, -, rfl⟩ := Plan.of_build hp
  obtain ⟨_, _, _, _, _, _, _, -, -, -, -, -, -, rfl⟩ := Plan.of_build hq
  exact ⟨rfl, rfl, rfl, rfl, rfl, h⟩

theorem heading (h : p.Renames spell q) (hd : p.dialect.Marks mark) :
    Renamed mark spell (ofText p.heading) (ofText q.heading) := by
  have hcolumns : Renamed mark spell
      (ofText (", ".intercalate
        ((p.keyColumns ++ p.selectedColumns).map (ColumnRef.select p.dialect))))
      (ofText (", ".intercalate
        ((q.keyColumns ++ q.selectedColumns).map (ColumnRef.select q.dialect)))) := by
    rw [← h.respelled.keyColumns, ← h.respelled.selectedColumns, h.dialect, ofText_intercalate,
      ofText_intercalate, List.map_map, List.map_map]
    exact .separated hd.isQuote (by decide) (Renamed.each fun c _ => c.select_renamed hd)
  have htable : Renamed mark spell (ofText (p.dialect.quoteColumn p.table))
      (ofText (spell p.table)) := hd.column p.table
  have has := htable.joined (t := " AS ") hd.isQuote (by decide) (hd.column p.tableAlias)
  have hfrom := hcolumns.joined (t := " FROM ") hd.isQuote (by decide) has
  simp only [Plan.heading, ofText_append, List.append_assoc]
  rw [h.dialect, h.table, h.tableAlias] at *
  exact (Follows.behind hd.isQuote (by decide) hfrom).renamed

theorem order (h : p.Renames spell q) (hd : p.dialect.Marks mark) :
    List.Forall₂ (Renamed mark spell) (p.writtenOrder catalog m inc)
      (q.writtenOrder catalog m inc) := by
  have hkeys : (tieBreakers q.dialect q.joins q.layout.keys).map (fun f => ofText f.sql)
      = (tieBreakers (p.dialect.naming spell) p.joins p.layout.keys).map
          fun f => ofText f.sql := by
    unfold tieBreakers
    rw [h.dialect, Joins.any_isMany_respelled h.respelled.joins, h.respelled.layout]
  unfold writtenOrder
  rw [hkeys, h.dialect, h.tableAlias]
  refine List.rel_append (List.rel_append ?_ ?_) ?_
  · exact Renamed.each fun term _ => term.written_renamed hd
  · unfold tieBreakers
    split
    · rw [List.map_map, List.map_map]
      exact Renamed.each fun key _ => key.ascending_renamed hd
    · exact .nil
  · exact Renamed.each fun use _ => use.2.written_renamed hd

theorem limitText (h : p.Renames spell q) : q.limitText = p.limitText := by
  unfold Plan.limitText
  rw [h.dialect, h.limit, h.offset, ← h.respelled.paging]
  rfl

theorem written (h : p.Renames spell q) (hd : p.dialect.Marks mark) :
    Renamed mark spell (p.written catalog m inc) (q.written catalog m inc) := by
  have hlimit : mark ∉ (ofText p.limitText).chars := by
    refine Plan.limitText_of_adjoining (adjoining_unmarked hd.isQuote) p fun text htext => ?_
    rw [chars_ofText]
    exact not_mem_of_bare hd.isQuote (all_isBare_of_opens
      (opens_append (by decide) (hd.unboundedLimit text htext)))
  have horder : List.Forall₂ (Renamed mark spell) (p.writtenOrder catalog m inc)
      (q.writtenOrder catalog m inc) := h.order hd
  unfold Plan.written
  rw [h.limitText]
  refine ((((h.heading hd).append ?joins).append ?filter).append ?order).append (.unmarked hlimit)
  case joins =>
    have huses : List.Forall₂ (Renamed mark spell)
        ((inc.keptUses catalog m p.tableAlias).map (Use.written p.dialect catalog))
        ((inc.keptUses catalog m p.tableAlias).map
          (Use.written (p.dialect.naming spell) catalog)) :=
      Renamed.each fun u _ => u.written_renamed hd
    have hblank : opens " ".toList := by decide
    have hbehind := Renamed.eachBehind hd.isQuote hblank huses
    rw [List.flatMap_map, List.flatMap_map] at hbehind
    rwa [h.dialect, h.tableAlias]
  case filter =>
    cases inc.filter with
    | none => exact .nil
    | some filter =>
        rw [h.dialect, h.tableAlias]
        exact .behind hd.isQuote (by decide) (filter.written_renamed hd)
  case order =>
    generalize p.writtenOrder catalog m inc = vs, q.writtenOrder catalog m inc = ws at horder ⊢
    cases horder with
    | nil => exact .nil
    | cons hhead hrest =>
        exact .behind hd.isQuote (by decide)
          (.separated hd.isQuote (by decide) (.cons hhead hrest))

end Plan.Renames

/-- A dialect stays lawful with names that are written soundly. -/
theorem Dialect.Lawful.naming (hd : d.Lawful) (hspell : ∀ name, (ofText (spell name)).Sound) :
    (d.naming spell).Lawful where
  quoteTable := hspell
  quoteColumn := hspell
  nullSafeEq := hd.nullSafeEq
  unboundedLimit := hd.unboundedLimit
  placed := hd.placed
  places := hd.places

/-- Names can be written anew in the statement of a plan: what comes out is
the statement of the plan that the same request has with names written in
that way. -/
theorem Plan.sql_renamed (hmark : d.Marks mark) (hd : d.Lawful)
    (hspell : ∀ name, (ofText (spell name)).Sound) {tableAlias : String} {offset : Nat}
    {limit : Option Nat} {plan : Plan}
    (h : Plan.build catalog d m inc tableAlias offset limit = .ok plan) :
    ∃ named, Plan.build catalog (d.naming spell) m inc tableAlias offset limit = .ok named
      ∧ plan.Respelled named
      ∧ Quoted.rename mark spell plan.sql.toList = named.sql.toList := by
  have hmethods : d.SameMethods (d.naming spell) := fun _ => rfl
  have halike : Alike Plan.Respelled (Plan.build catalog d m inc tableAlias offset limit)
      (Plan.build catalog (d.naming spell) m inc tableAlias offset limit) :=
    Plan.build_alike hmethods m inc tableAlias offset limit
  rw [h] at halike
  cases hnamed : Plan.build catalog (d.naming spell) m inc tableAlias offset limit with
  | error e =>
      rw [hnamed] at halike
      cases halike
  | ok named =>
      rw [hnamed] at halike
      cases halike with
      | ok hrespelled =>
      have hrenames := Plan.Renames.of_build h hnamed hrespelled
      obtain ⟨rfl, rfl⟩ := Plan.names_of_build h
      have hspells := Plan.spells hd h
      have hnamedSpells : (named.written catalog m inc).Spells named.sql named.params := by
        have hlawful := hd.naming hspell
        rw [← hrenames.dialect] at hlawful hnamed
        rw [← hrenames.tableAlias] at hnamed
        exact Plan.spells hlawful hnamed
      have hrenamed : Renamed mark spell (plan.written catalog m inc)
          (named.written catalog m inc) := hrenames.written hmark
      have hwritten := hrenamed [] nofun
      refine ⟨named, rfl, hrespelled, ?_⟩
      rw [List.append_nil, Quoted.rename_nil, List.append_nil] at hwritten
      rw [← hspells.chars, ← hnamedSpells.chars, hwritten]

-- ============================================================= databases

/-- A point is no mark. -/
theorem Flavor.quoteTableColumn_inj (flavor : Flavor) {t c t' c' : String}
    (h : flavor.dialect.quoteTableColumn t c = flavor.dialect.quoteTableColumn t' c') :
    t = t' ∧ c = c' := by
  unfold Dialect.quoteTableColumn at h
  rw [String.append_assoc, String.append_assoc] at h
  have hmark : some '.' ≠ some flavor.quoteMark := by cases flavor <;> decide
  have hpoint : ∀ name : String,
      ("." ++ flavor.dialect.quoteColumn name).toList.head? ≠ some flavor.quoteMark := by
    intro name
    rw [String.toList_append]
    exact hmark
  obtain ⟨htable, hcolumn⟩ := Quoted.write_cancel (hpoint c) (hpoint c') h
  refine ⟨htable, Quoted.write_injective flavor.quoteMark ?_⟩
  rw [← String.toList_inj, String.toList_append, String.toList_append] at hcolumn
  exact String.toList_inj.1 (List.append_cancel_left hcolumn)

/-- Quoted names delimit themselves. One reader takes a quoted name, and
nothing else, from the front of a text in which no mark follows it, with
what does follow. So names are told from their texts, and both names of a
column within a table are. And the names in a plan's statement can be
written in any other way that leaves no quote open and adds no
placeholder: the rest of the statement stays as it is, whatever the names
hold. -/
theorem Flavor.names_delimit_themselves (flavor : Flavor) :
    (∀ text name rest : String, Quoted.read? flavor.quoteMark text = some (name, rest)
        ↔ text = flavor.dialect.quoteColumn name ++ rest
          ∧ rest.toList.head? ≠ some flavor.quoteMark)
      ∧ flavor.dialect.quoteTable = flavor.dialect.quoteColumn
      ∧ flavor.dialect.quoteColumn.Injective
      ∧ (∀ t c t' c' : String,
        flavor.dialect.quoteTableColumn t c = flavor.dialect.quoteTableColumn t' c'
          → t = t' ∧ c = c')
      ∧ ∀ spell : String → String, (∀ name, (ofText (spell name)).Sound) →
        ∀ (catalog : Catalog) (m : Mapping) (inc : IncludeTree) (tableAlias : String)
          (offset : Nat) (limit : Option Nat) (plan : Plan),
          Plan.build catalog flavor.dialect m inc tableAlias offset limit = .ok plan →
          ∃ named, Plan.build catalog (flavor.dialect.naming spell) m inc tableAlias offset limit
              = .ok named
            ∧ plan.Respelled named
            ∧ Quoted.rename flavor.quoteMark spell plan.sql.toList = named.sql.toList := by
  refine ⟨fun _ _ _ => Quoted.read?_eq_some_iff, rfl, Quoted.write_injective flavor.quoteMark,
    fun _ _ _ _ => flavor.quoteTableColumn_inj, ?_⟩
  intro spell hspell catalog m inc tableAlias offset limit plan h
  exact Plan.sql_renamed flavor.dialect_marks flavor.dialect_lawful hspell h

/-- Marks at both ends of a name and in it, and a request whose names hold
question marks and marks: with its names in other marks, the statement is
the one for the dialect that writes them so. -/
theorem Flavor.hostile_names_delimited : ∃ plan named : Plan,
    Plan.build hostileCatalog Flavor.mysql.dialect hostileMapping hostileInclude "a`?" 2 (some 3)
        = .ok plan
      ∧ Plan.build hostileCatalog (Flavor.mysql.dialect.naming (Quoted.write '"')) hostileMapping
        hostileInclude "a`?" 2 (some 3) = .ok named
      ∧ Quoted.rename (Char.ofNat 0x60) (Quoted.write '"') plan.sql.toList = named.sql.toList
      ∧ Quoted.read? (Char.ofNat 0x60)
          (Flavor.mysql.dialect.quoteColumn "`a``b`" ++ " = 1")
        = some ("`a``b`", " = 1") := by
  obtain ⟨hread, -, -, -, hrenamed⟩ := Flavor.names_delimit_themselves .mysql
  have hspell : ∀ name, (ofText (Quoted.write '"' name)).Sound :=
    Sound.quoted (by decide) (by decide)
  obtain ⟨named, hnamed, -, hsql⟩ := hrenamed _ hspell hostileCatalog hostileMapping
    hostileInclude "a`?" 2 (some 3) _ rfl
  exact ⟨_, named, rfl, hnamed, hsql, (hread _ _ _).2 ⟨rfl, by decide⟩⟩

end RecordQuery
