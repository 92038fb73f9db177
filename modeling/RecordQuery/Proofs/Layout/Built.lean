/-
The structures that plans lay out. A built structure is laid out by its
mapping: its columns are key and data columns of the mapping, what stands
below it belongs to relations of the mapping and to the mappings they lead
to, and each structure below starts where the one before it ends.

The walk over included relations builds such structures, whatever the
shape of the include; everything shown of layouts is shown of built
structures, by induction on how they are built.
-/
import RecordQuery.Proofs.Plan.Parts
import RecordQuery.Proofs.Schema.Sealed

namespace RecordQuery

namespace Structure

/-- Structures that follow each other without a gap, the first at a
position. -/
def PlacedFrom : Nat → List (Relation × Structure) → Prop
  | _, [] => True
  | start, (_, s) :: rest => s.offset = start ∧ PlacedFrom (start + s.width) rest

/-- A structure as plans lay it out for a mapping. -/
inductive Built (catalog : Catalog) : Structure → Prop where
  | mk {s : Structure}
      (keys : ∃ outputPrefix, s.keys = s.mapping.keyStructure s.tableAlias outputPrefix)
      (fields : ∃ names, s.mapping.fieldStructure s.tableAlias names = .ok s.fields)
      (relation : ∀ e ∈ s.relations, s.mapping.relation? e.1.field = some e.1)
      (target : ∀ e ∈ s.relations, catalog.mapping? e.1.target = some e.2.mapping)
      (placed : PlacedFrom s.fieldEnd s.relations)
      (below : ∀ e ∈ s.relations, Built catalog e.2) : Built catalog s

/-- A structure that holds no relation twice, and nor does any below
it. -/
inductive Distinct : Structure → Prop where
  | mk {s : Structure} (fields : (s.relations.map fun e => e.1.field).Nodup)
      (below : ∀ e ∈ s.relations, Distinct e.2) : Distinct s

theorem width_eq (s : Structure) : s.width = s.ownWidth + widths s.relations := by
  cases s
  rfl

theorem fieldEnd_eq (s : Structure) : s.fieldEnd = s.offset + s.ownWidth := by
  unfold fieldEnd keyEnd ownWidth
  rw [Nat.add_assoc]

end Structure

-- ============================================================= columns

/-- A column that is found by its field is one of the mapping, and holds the
field. -/
theorem Mapping.of_columnOfField {m : Mapping} {field : String} {c : Column}
    (h : m.columnOfField field = .ok c) : c ∈ m.columns ∧ c.field = field := by
  unfold columnOfField at h
  split at h
  · next found =>
    cases h
    exact ⟨List.mem_of_find?_eq_some found, by simpa using List.find?_some found⟩
  · cases h

/-- A selected column is one of a mapping's, of the table of an alias. -/
structure StructureColumn.Of (m : Mapping) (tableAlias : String) (c : StructureColumn) : Prop where
  column : c.column ∈ m.columns
  table : c.ref.table = tableAlias
  name : c.ref.name = c.column.name

theorem Mapping.of_keyStructure {m : Mapping} {tableAlias outputPrefix : String}
    {c : StructureColumn} (hc : c ∈ m.keyStructure tableAlias outputPrefix) :
    c.Of m tableAlias := by
  unfold keyStructure at hc
  obtain ⟨i, hi, rfl⟩ := List.mem_mapIdx.1 hc
  obtain ⟨name, -, hname⟩ := List.mem_filterMap.1 (List.getElem_mem (l := m.keyColumns) hi)
  exact ⟨List.mem_of_find?_eq_some hname, rfl, rfl⟩

theorem Mapping.of_fieldStructure {m : Mapping} {tableAlias : String} {names : List String}
    {fields : List StructureColumn} (h : m.fieldStructure tableAlias names = .ok fields)
    {c : StructureColumn} (hc : c ∈ fields) : c.Of m tableAlias := by
  unfold fieldStructure at h
  dsimp only at h
  split at h
  · cases h
    obtain ⟨column, hcolumn, rfl⟩ := List.mem_map.1 hc
    exact ⟨hcolumn, rfl, rfl⟩
  · obtain ⟨name, -, hname⟩ := exists_of_mem_mapM h hc
    obtain ⟨column, hcolumn, rfl⟩ := map_eq_ok.1 hname
    exact ⟨(of_columnOfField hcolumn).1, rfl, rfl⟩

/-- The columns of a built structure are its mapping's, of its table. -/
theorem Structure.Built.of_columns {catalog : Catalog} {s : Structure} (h : s.Built catalog)
    {c : StructureColumn} (hc : c ∈ s.keys ++ s.fields) : c.Of s.mapping s.tableAlias := by
  cases h with
  | mk keys fields _ _ _ _ =>
      obtain ⟨outputPrefix, hkeys⟩ := keys
      obtain ⟨names, hfields⟩ := fields
      rcases List.mem_append.1 hc with hc | hc
      · rw [hkeys] at hc
        exact Mapping.of_keyStructure hc
      · exact Mapping.of_fieldStructure hfields hc

-- =============================================================== steps

variable {catalog : Catalog} {dialect : Dialect} {m : Mapping}

/-- What the walk makes of one included relation: a structure for the
step's mapping where the walk stands, and below it what the walk makes of
the include's relations. -/
theorem IncludeTree.of_layout {inc : IncludeTree} {parent before name : String} {walk walk' : Walk}
    {entry : Relation × Structure}
    (h : inc.layout dialect catalog m parent before walk name = .ok (entry, walk')) :
    ∃ entered : Walk,
      m.relation? name = some entry.1 ∧ entry.1.field = name
      ∧ catalog.mapping? entry.1.target = some entry.2.mapping
      ∧ entry.2.keys
        = entry.2.mapping.keyStructure entry.2.tableAlias s!"_{entry.2.tableAlias}_"
      ∧ entry.2.mapping.fieldStructure entry.2.tableAlias inc.fields = .ok entry.2.fields
      ∧ entry.2.offset = walk.offset ∧ entered.offset = entry.2.fieldEnd
      ∧ IncludeTree.layoutEach dialect catalog entry.2.mapping entry.2.tableAlias
        entry.2.tableAlias entered inc.relations = .ok (entry.2.relations, walk') := by
  cases inc with
  | mk fields relations filter order =>
      obtain ⟨step, hstep, h⟩ := bind_eq_ok.1 h
      obtain ⟨⟨s, entered⟩, henter, h⟩ := bind_eq_ok.1 h
      obtain ⟨⟨below, left⟩, hbelow, h⟩ := bind_eq_ok.1 h
      cases pure_eq_ok.1 h
      obtain ⟨filter', -, henter⟩ := bind_eq_ok.1 henter
      obtain ⟨orders, -, henter⟩ := bind_eq_ok.1 henter
      obtain ⟨joins, -, henter⟩ := bind_eq_ok.1 henter
      obtain ⟨fields', hfields, henter⟩ := bind_eq_ok.1 henter
      cases pure_eq_ok.1 henter
      obtain ⟨hrelation, hname, htarget⟩ := Catalog.of_step hstep
      subst hname
      exact ⟨_, hrelation, rfl, htarget, rfl, hfields, rfl, (Nat.add_assoc _ _ _).symm, hbelow⟩

-- ================================================================ walks

/-- The relations of a mapping, and built structures for the mappings they
lead to, placed one behind the other. -/
structure Structure.BuiltEach (catalog : Catalog) (m : Mapping) (start : Nat)
    (entries : List (Relation × Structure)) : Prop where
  relation : ∀ e ∈ entries, m.relation? e.1.field = some e.1
  target : ∀ e ∈ entries, catalog.mapping? e.1.target = some e.2.mapping
  placed : Structure.PlacedFrom start entries
  below : ∀ e ∈ entries, Structure.Built catalog e.2

mutual

/-- The walk builds a structure for an included relation, and stands behind
it afterwards. -/
theorem IncludeTree.built_of_layout : ∀ {inc : IncludeTree} {m : Mapping}
    {parent before name : String} {walk walk' : Walk} {entry : Relation × Structure},
    inc.layout dialect catalog m parent before walk name = .ok (entry, walk') →
    entry.2.Built catalog ∧ walk'.offset = walk.offset + entry.2.width
  | ⟨fields, relations, filter, order⟩, m, parent, before, name, walk, walk', entry, h => by
      obtain ⟨entered, -, -, -, hkeys, hfields, hoffset, hentered, hbelow⟩ :=
        IncludeTree.of_layout h
      obtain ⟨hbuilt, hend⟩ := IncludeTree.built_of_layoutEach hbelow
      rw [hentered] at hbuilt hend
      refine ⟨.mk ⟨_, hkeys⟩ ⟨_, hfields⟩ hbuilt.relation hbuilt.target hbuilt.placed
        hbuilt.below, ?_⟩
      rw [hend, Structure.fieldEnd_eq, Structure.width_eq, hoffset, Nat.add_assoc]
termination_by structural inc => inc

/-- The walk builds structures for included relations, one behind the
other. -/
theorem IncludeTree.built_of_layoutEach : ∀ {relations : List (String × IncludeTree)}
    {m : Mapping} {parent before : String} {walk walk' : Walk}
    {entries : List (Relation × Structure)},
    IncludeTree.layoutEach dialect catalog m parent before walk relations = .ok (entries, walk') →
    Structure.BuiltEach catalog m walk.offset entries
      ∧ walk'.offset = walk.offset + Structure.widths entries
  | [], m, parent, before, walk, walk', entries, h => by
      cases pure_eq_ok.1 h
      exact ⟨⟨by simp, by simp, trivial, by simp⟩, rfl⟩
  | (name, inc) :: rest, m, parent, before, walk, walk', entries, h => by
      obtain ⟨⟨entry, between⟩, hentry, h⟩ := bind_eq_ok.1 h
      obtain ⟨⟨more, left⟩, hmore, h⟩ := bind_eq_ok.1 h
      cases pure_eq_ok.1 h
      obtain ⟨hhead, hbetween⟩ := IncludeTree.built_of_layout hentry
      obtain ⟨hrest, hend⟩ := IncludeTree.built_of_layoutEach hmore
      obtain ⟨-, hrelation, hname, htarget, -, -, hoffset, -, -⟩ :=
        IncludeTree.of_layout hentry
      rw [hbetween] at hrest hend
      refine ⟨⟨?_, ?_, ⟨hoffset, hrest.placed⟩, ?_⟩, ?_⟩
      · exact List.forall_mem_cons.2 ⟨by rw [hname]; exact hrelation, hrest.relation⟩
      · exact List.forall_mem_cons.2 ⟨htarget, hrest.target⟩
      · exact List.forall_mem_cons.2 ⟨hhead, hrest.below⟩
      · rw [hend, Structure.widths, Nat.add_assoc]
termination_by structural relations => relations

end

mutual

/-- The walk over a distinct include makes a distinct structure. -/
theorem IncludeTree.distinct_of_layout : ∀ {inc : IncludeTree} {m : Mapping}
    {parent before name : String} {walk walk' : Walk} {entry : Relation × Structure},
    inc.Distinct → inc.layout dialect catalog m parent before walk name = .ok (entry, walk') →
    entry.2.Distinct
  | ⟨fields, relations, filter, order⟩, m, parent, before, name, walk, walk', entry, hinc,
    h => by
      obtain ⟨entered, -, -, -, -, -, -, -, hbelow⟩ := IncludeTree.of_layout h
      cases hinc with
      | mk names below =>
          obtain ⟨hfields, hdistinct⟩ := IncludeTree.distinct_of_layoutEach below hbelow
          exact .mk (hfields ▸ names) hdistinct
termination_by structural inc => inc

/-- The walk keeps the names of the relations it follows. -/
theorem IncludeTree.distinct_of_layoutEach : ∀ {relations : List (String × IncludeTree)}
    {m : Mapping} {parent before : String} {walk walk' : Walk}
    {entries : List (Relation × Structure)},
    (∀ entry ∈ relations, entry.2.Distinct) →
    IncludeTree.layoutEach dialect catalog m parent before walk relations = .ok (entries, walk') →
    (entries.map fun e => e.1.field) = relations.map Prod.fst
      ∧ ∀ e ∈ entries, e.2.Distinct
  | [], m, parent, before, walk, walk', entries, hrel, h => by
      cases pure_eq_ok.1 h
      exact ⟨rfl, by simp⟩
  | (name, inc) :: rest, m, parent, before, walk, walk', entries, hrel, h => by
      obtain ⟨⟨entry, between⟩, hentry, h⟩ := bind_eq_ok.1 h
      obtain ⟨⟨more, left⟩, hmore, h⟩ := bind_eq_ok.1 h
      cases pure_eq_ok.1 h
      obtain ⟨hinc, hrel⟩ := List.forall_mem_cons.1 hrel
      obtain ⟨hnames, hrest⟩ := IncludeTree.distinct_of_layoutEach hrel hmore
      obtain ⟨-, -, hname, -⟩ := IncludeTree.of_layout hentry
      refine ⟨?_, List.forall_mem_cons.2 ⟨IncludeTree.distinct_of_layout hinc hentry, hrest⟩⟩
      rw [List.map_cons, List.map_cons, hname, hnames]
termination_by structural relations => relations

end

-- ================================================================ plans

section Plans

variable {inc : IncludeTree} {tableAlias : String} {offset : Nat} {limit : Option Nat} {plan : Plan}

/-- A built plan's layout is a built structure at the beginning of the
row. -/
theorem Plan.layout_built
    (h : Plan.build catalog dialect m inc tableAlias offset limit = .ok plan) :
    plan.layout.Built catalog ∧ plan.layout.mapping = m ∧ plan.layout.offset = 0 := by
  obtain ⟨fields, relations, walk, _, _, _, _, hfields, hwalk, -, -, -, -, rfl⟩ :=
    Plan.of_build h
  obtain ⟨hbuilt, -⟩ := IncludeTree.built_of_layoutEach hwalk
  refine ⟨.mk ⟨_, rfl⟩ ⟨_, hfields⟩ hbuilt.relation hbuilt.target ?_ hbuilt.below, rfl, rfl⟩
  have hplaced := hbuilt.placed
  simpa [Structure.fieldEnd_eq, Structure.ownWidth] using hplaced

/-- A distinct include is laid out distinctly. -/
theorem Plan.layout_distinct (hinc : inc.Distinct)
    (h : Plan.build catalog dialect m inc tableAlias offset limit = .ok plan) :
    plan.layout.Distinct := by
  obtain ⟨fields, relations, walk, _, _, _, _, -, hwalk, -, -, -, -, rfl⟩ := Plan.of_build h
  cases hinc with
  | mk names below =>
      obtain ⟨hnames, hdistinct⟩ := IncludeTree.distinct_of_layoutEach below hwalk
      exact .mk (hnames ▸ names) hdistinct

end Plans

end RecordQuery
