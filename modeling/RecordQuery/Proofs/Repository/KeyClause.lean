/-
Columns named by their fields. A field without a point is looked up in the
mapping at hand: it needs no join, and it is written as its column. A point
makes a path of any name, so the field of a column that has one is never
looked up as a whole: following it fails, or leads away from the table.
Sealing a catalog does not ask for fields without points.

The clause by which known records are loaded names the key columns by their
fields, and compares them with values. So it is compiled without joins
exactly if these fields have no points, and then has the values of all keys
for its parameters.
-/
import RecordQuery.Proofs.Acceptance.Clauses
import RecordQuery.Proofs.Path.Fields
import RecordQuery.Proofs.Repository.Get

namespace RecordQuery

variable {dialect : Dialect} {scope : Scope} {m : Mapping} {c : Column} {path : String}
  {f : Fragment}

-- =============================================================== paths

namespace FieldPath

/-- A path has a segment more than it has points. -/
theorem length_segments (cs : List Char) : (segments cs).length = cs.count '.' + 1 := by
  induction cs with
  | nil => rfl
  | cons c cs ih =>
      by_cases hc : c = '.'
      · rw [segments, if_pos hc, List.length_cons, ih, hc, List.count_cons_self]
      · rw [segments, if_neg hc, List.count_cons_of_ne hc, ← ih]
        split
        · next hnil =>
          rw [hnil] at ih
          cases ih
        · next first more hsegments => rw [hsegments, List.length_cons, List.length_cons]

/-- A path with a point follows a relation. -/
theorem split_ne_nil (h : isDotted path = true) : (split path).1 ≠ [] := by
  have hcount : 0 < path.toList.count '.' := List.count_pos_iff.2 (List.contains_iff_mem.1 h)
  have hlength : (split path).1.length = path.toList.count '.' := by
    rw [split, List.length_dropLast, List.length_map, length_segments, Nat.add_sub_cancel]
  exact List.ne_nil_of_length_pos (hlength ▸ hcount)

theorem relationPaths_of_not_dotted (h : isDotted path = false) : relationPaths path = [] := by
  rw [relationPaths, split_of_not_dotted h]
  rfl

end FieldPath

-- ============================================================== columns

theorem Joins.eq_nil_of_ofSteps {steps : List Step} (h : ofSteps dialect steps = []) :
    steps = [] := by
  cases steps with
  | nil => rfl
  | cons step rest =>
      rw [ofSteps, List.map_cons, firsts, firstsBy_cons] at h
      cases h

namespace Scope

/-- What is written for a path with a point takes steps. -/
theorem stepsTo_ne_nil (hdot : FieldPath.isDotted path = true)
    (h : scope.field dialect path = .ok f) : scope.stepsTo path ≠ [] := by
  unfold field at h
  rw [hdot, Bool.not_true, if_neg Bool.false_ne_true] at h
  split at h
  · cases h
  · obtain ⟨resolved, hresolved, -⟩ := bind_eq_ok.1 h
    obtain ⟨last, hlast, -⟩ :=
      leads_getLast? (leads_of_resolve hresolved) (FieldPath.split_ne_nil hdot)
    simp only [stepsTo, hresolved]
    exact List.ne_nil_of_mem (List.mem_of_getLast? hlast)

theorem stepsTo_of_not_dotted (h : FieldPath.isDotted path = false) : scope.stepsTo path = [] := by
  rw [stepsTo, resolve_of_not_dotted h]
  cases scope.mapping.columnRef scope.tableAlias "" path <;> rfl

/-- No path with a point is written without joins. -/
theorem not_dotted_of_joins (hd : dialect.Lawful) (h : scope.field dialect path = .ok f)
    (hjoins : f.joins = []) : FieldPath.isDotted path = false := by
  by_contra hdot
  rw [Bool.not_eq_false] at hdot
  have hsteps := (field_renders hd h).joins.symm.trans hjoins
  exact stepsTo_ne_nil hdot h (Joins.eq_nil_of_ofSteps hsteps)

/-- The field of a column is written as the column, unless there is a point
in it. -/
theorem field_iff (hd : dialect.Lawful) (hm : scope.mapping.Consistent)
    (hc : c ∈ scope.mapping.columns) :
    scope.field dialect c.field
        = .ok { sql := dialect.quoteTableColumn scope.tableAlias c.name }
      ↔ FieldPath.isDotted c.field = false := by
  constructor
  · exact fun h => not_dotted_of_joins hd h rfl
  · intro hdot
    unfold field Mapping.columnRef Mapping.columnOfField
    rw [hdot, Bool.not_false, if_pos rfl, (Mapping.columnOfField?_eq_some hm).2 ⟨hc, rfl⟩]
    rfl

theorem finds_column (hc : c ∈ scope.mapping.columns) (hdot : FieldPath.isDotted c.field = false) :
    scope.Finds c.field where
  own := fun _ => hdot
  reached := ⟨scope.mapping, by
    rw [FieldPath.split_of_not_dotted hdot]
    exact ⟨.here, c, hc, rfl⟩⟩

end Scope

-- =========================================================== key clause

namespace Mapping

variable {keys : List (List Value)}

theorem mem_columns_of_mem_keyColumns (h : c ∈ m.keyColumns) : c ∈ m.columns := by
  obtain ⟨name, -, hname⟩ := List.mem_filterMap.1 h
  exact List.mem_of_find?_eq_some hname

/-- The leaves of a key clause: the fields of the key columns, and the
values of the keys. -/
theorem collect_keyClause {α : Type} (literal : Value → List α) (field : String → List α)
    (hkeys : keys ≠ []) :
    (m.keyClause keys).collect literal field
      = (m.keyColumns.flatMap fun c => field c.field) ++ keys.flatMap (List.flatMap literal) := by
  have hempty : (keys.map fun key => key.map Element.value).isEmpty = false := by simpa using hkeys
  rw [keyClause, Clause.collect, hempty, if_neg Bool.false_ne_true, List.flatMap_map,
    List.flatMap_map]
  simp only [List.flatMap_map]
  rfl

/-- What is found at the fields of a key clause alone. -/
theorem collect_keyClause_eq_nil {α : Type} (field : String → List α) (hkeys : keys ≠ []) :
    (m.keyClause keys).collect (fun _ => []) field = []
      ↔ ∀ c ∈ m.keyColumns, field c.field = [] := by
  have hvalues : keys.flatMap (List.flatMap fun _ => ([] : List α)) = [] :=
    List.flatMap_eq_nil_iff.2 fun _ _ => List.flatMap_eq_nil_iff.2 fun _ _ => rfl
  rw [collect_keyClause _ _ hkeys, hvalues, List.append_nil, List.flatMap_eq_nil_iff]

theorem literals_keyClause (hkeys : keys ≠ []) : (m.keyClause keys).literals = keys.flatten := by
  have hfields : (m.keyColumns.flatMap fun _ => ([] : List Value)) = [] :=
    List.flatMap_eq_nil_iff.2 fun _ _ => rfl
  unfold Clause.literals
  rw [collect_keyClause _ _ hkeys, hfields, List.nil_append, ← List.flatMap_id]
  exact List.flatMap_congr fun key _ => List.flatMap_singleton' key

/-- A key clause fits its mapping, if no field of a key column has a point. -/
theorem valid_keyClause (hne : m.keyColumns ≠ [])
    (hlength : ∀ key ∈ keys, key.length = m.keyColumns.length) (hkeys : keys ≠ [])
    (hm : scope.mapping = m) (hplain : ∀ c ∈ m.keyColumns, FieldPath.isDotted c.field = false) :
    (m.keyClause keys).Valid scope := by
  subst hm
  refine Clause.valid_isIn.2 ⟨⟨⟨?_, ?_⟩, ?_⟩, ?_, ?_⟩
  · simpa using hne
  · simpa using hlength
  · exact fun h => absurd (List.map_eq_nil_iff.1 h) hkeys
  · refine List.forall_mem_map.2 fun c hc => List.forall_mem_singleton.2 ?_
    exact Scope.finds_column (mem_columns_of_mem_keyColumns hc) (hplain c hc)
  · refine List.forall_mem_map.2 fun key _ => List.forall_mem_map.2 fun v _ => ?_
    exact List.forall_mem_singleton.2 trivial

/-- A key clause is compiled without joins exactly if no field of a key
column has a point. -/
theorem compile_keyClause (flavor : Flavor) (hbare : scope.aliasPrefix = "")
    (hne : m.keyColumns ≠ []) (hlength : ∀ key ∈ keys, key.length = m.keyColumns.length)
    (hkeys : keys ≠ []) (hm : scope.mapping = m) :
    (∃ f, (m.keyClause keys).compile flavor.dialect scope = .ok f ∧ f.joins = []
        ∧ f.params = keys.flatten)
      ↔ ∀ c ∈ m.keyColumns, FieldPath.isDotted c.field = false := by
  constructor
  · rintro ⟨f, hf, hjoins, -⟩ c hc
    have hsteps : (m.keyClause keys).steps scope = [] :=
      Joins.eq_nil_of_ofSteps
        ((Clause.compile_renders flavor.dialect_lawful hf).joins.symm.trans hjoins)
    obtain ⟨-, left, hleft, -⟩ := Clause.of_compileIn hf
    obtain ⟨fs, hfs, -⟩ := bind_eq_ok.1 hleft
    obtain ⟨g, hg⟩ := ok_of_mem_mapM hfs (List.mem_map_of_mem hc)
    by_contra hdot
    rw [Bool.not_eq_false] at hdot
    exact Scope.stepsTo_ne_nil hdot hg ((collect_keyClause_eq_nil _ hkeys).1 hsteps c hc)
  · intro hplain
    have hpaths : (m.keyClause keys).paths = [] :=
      (collect_keyClause_eq_nil _ hkeys).2 fun c hc =>
        FieldPath.relationPaths_of_not_dotted (hplain c hc)
    have hsteps : (m.keyClause keys).steps scope = [] :=
      (collect_keyClause_eq_nil _ hkeys).2 fun c hc =>
        Scope.stepsTo_of_not_dotted (hplain c hc)
    obtain ⟨f, hf⟩ := (Clause.compile_decided flavor.dialect_complete hbare _).complete
      ⟨valid_keyClause hne hlength hkeys hm hplain, hpaths ▸ RelationPath.not_clash_nil⟩
    have hrenders := Clause.compile_renders flavor.dialect_lawful hf
    exact ⟨f, hf, hrenders.joins.trans (hsteps ▸ Joins.firsts_nil),
      hrenders.params.trans (literals_keyClause hkeys)⟩

end Mapping

-- ========================================================== addressing

namespace Catalog

/-- In a sealed catalog the field of a column names the column, wherever
the table stands, exactly if there is no point in it; and targets have a
key clause that compares the columns of the key alone, with their keys for
its parameters, exactly if no field of the key has a point. -/
theorem addresses_columns (flavor : Flavor) (catalog : Catalog) (m : Mapping)
    (hm : m ∈ catalog.mappings) (tableAlias : String) (relation : Option String) :
    let scope : Scope := { catalog, mapping := m, tableAlias, relation }
    (∀ c ∈ m.columns,
      (Element.field c.field).compile flavor.dialect scope
          = .ok { sql := flavor.dialect.quoteTableColumn tableAlias c.name }
        ↔ FieldPath.isDotted c.field = false)
    ∧ ∀ targets : List Record, targets ≠ [] → (∀ t ∈ targets, t.model = m.model) →
      ∃ keys, targets.mapM m.keyOf = .ok keys
        ∧ ((∃ f, (m.keyClause keys).compile flavor.dialect scope = .ok f ∧ f.joins = []
            ∧ f.params = keys.flatten)
          ↔ ∀ c ∈ m.keyColumns, FieldPath.isDotted c.field = false) := by
  intro scope
  have hconsistent : scope.mapping.Consistent := Catalog.consistent hm
  have hlength := hconsistent.length_keyColumns
  have hkeyed : 0 < m.keyColumns.length :=
    hlength ▸ List.length_pos_of_ne_nil (Catalog.primaryKey_ne_nil hm)
  refine ⟨fun c hc => Scope.field_iff flavor.dialect_lawful hconsistent hc, ?_⟩
  intro targets hne htargets
  refine ⟨_, Mapping.mapM_keyOf htargets, ?_⟩
  refine Mapping.compile_keyClause flavor rfl (List.ne_nil_of_length_pos hkeyed) ?_ ?_ rfl
  · exact List.forall_mem_map.2 fun t _ => List.length_map _
  · exact fun h => hne (List.map_eq_nil_iff.1 h)

/-- Two people are asked for by their keys. -/
theorem addresses_people :
    personMapping ∈ personCatalog.mappings
      ∧ ∃ f, (personMapping.keyClause [[.int64 1], [.int64 9]]).compile Flavor.postgresql.dialect
          (Scope.ofMapping personCatalog personMapping) = .ok f
        ∧ f.joins = [] ∧ f.params = [.int64 1, .int64 9] := by
  have hmem : personMapping ∈ personCatalog.mappings := List.mem_singleton_self _
  obtain ⟨-, hclause⟩ :=
    addresses_columns .postgresql personCatalog personMapping hmem "people" none
  obtain ⟨keys, hkeys, hcompiled⟩ := hclause people (by decide) (by decide)
  cases hkeys
  exact ⟨hmem, hcompiled.2 (by decide)⟩

end Catalog

/-- Cities by their codes, which are kept in a field with a point in its
name. -/
def cityMapping : Mapping where
  model := "City"
  table := "cities"
  columns :=
    [{ name := "code", field := "iso.code", type := .int64 },
     { name := "name", field := "name", type := .text }]
  primaryKey := ["code"]

def cityCatalog : Catalog := ⟨[cityMapping], by decide⟩

def city : Record :=
  ⟨"City", [("iso.code", .int64 7)], []⟩

/-- The mapping is sealed, but its field is taken for a path: neither the
column nor a key clause is compiled, and no city is got by its key. -/
theorem Catalog.seals_field_that_names_no_column :
    ofMappings [cityMapping] = .ok cityCatalog
      ∧ (∃ c ∈ cityMapping.columns,
        (Element.field c.field).compile Flavor.sqlite.dialect
            (Scope.ofMapping cityCatalog cityMapping)
          = .error (.unknownRelation "City" "iso" "iso.code"))
      ∧ (∃ keys, [city].mapM cityMapping.keyOf = .ok keys
        ∧ (cityMapping.keyClause keys).compile Flavor.sqlite.dialect
            (Scope.ofMapping cityCatalog cityMapping)
          = .error (.unknownRelation "City" "iso" "iso.code"))
      ∧ ∀ c : Circumstances,
        ({ Repository.peopleRepository with catalog := cityCatalog }.get c "City" [city] {}).result
          = .error (Error.noted (CompileError.unknownRelation "City" "iso" "iso.code") "get") :=
  ⟨rfl, ⟨_, List.mem_cons_self, rfl⟩, ⟨_, rfl, rfl⟩, fun _ => rfl⟩

end RecordQuery
