/-
The columns that fields are written as. A field that is compiled reads one
column: of the scope's own table, or of the table at the end of the
relations that it follows. Whatever is compiled was compiled field by
field, so every field written in a condition or an order reads a column.
-/
import RecordQuery.Proofs.Layout.Built
import RecordQuery.Proofs.Path.Compiled

namespace RecordQuery

-- ============================================================== columns

/-- A column of the names of a mapping's columns. -/
def Mapping.HasColumn (m : Mapping) (name : String) : Prop :=
  name ∈ m.columns.map Column.name

theorem Mapping.of_columnRef {m : Mapping} {tableAlias outputPrefix field : String}
    {ref : ColumnRef} (h : m.columnRef tableAlias outputPrefix field = .ok ref) :
    ref.table = tableAlias ∧ m.HasColumn ref.name := by
  obtain ⟨c, hc, rfl⟩ := map_eq_ok.1 h
  exact ⟨rfl, List.mem_map_of_mem (of_columnOfField hc).1⟩

namespace Scope

variable {dialect : Dialect} {scope : Scope} {field : String} {ref : ColumnRef} {f : Fragment}

/-- A field resolves to a column, and is written as that column. -/
structure Reads (dialect : Dialect) (scope : Scope) (field : String) (ref : ColumnRef) :
    Prop where
  resolved : ∃ resolved, scope.resolve field = .ok resolved ∧ resolved.column = ref
  written : ∃ f, scope.field dialect field = .ok f
    ∧ f.sql = dialect.quoteTableColumn ref.table ref.name

/-- All of some fields read columns of the scope's own table. -/
def ReadsOwn (dialect : Dialect) (scope : Scope) (fields : List String) : Prop :=
  ∀ field ∈ fields, ∃ ref, scope.Reads dialect field ref ∧ ref.table = scope.tableAlias
    ∧ scope.mapping.HasColumn ref.name

/-- A compiled field reads a column. -/
theorem reads_of_field (h : scope.field dialect field = .ok f) :
    ∃ ref, scope.Reads dialect field ref := by
  have hfield := h
  unfold Scope.field at h
  split at h
  · next hdot =>
    rw [Bool.not_eq_true'] at hdot
    obtain ⟨c, hc, rfl⟩ := map_eq_ok.1 h
    have hresolve : scope.resolve field = _ := resolve_of_not_dotted hdot
    rw [hc] at hresolve
    exact ⟨c, ⟨_, hresolve, rfl⟩, _, hfield, rfl⟩
  · split at h
    · cases h
    · obtain ⟨resolved, hresolve, h⟩ := bind_eq_ok.1 h
      obtain ⟨joins, -, h⟩ := bind_eq_ok.1 h
      cases pure_eq_ok.1 h
      exact ⟨resolved.column, ⟨_, hresolve, rfl⟩, _, hfield, rfl⟩

/-- In the filter and the order of an included relation, fields follow no
relations. -/
theorem split_of_nested {relation : String} (hrelation : scope.relation = some relation)
    (h : scope.field dialect field = .ok f) : (FieldPath.split field).1 = [] := by
  unfold Scope.field at h
  split at h
  · next hdot =>
    rw [Bool.not_eq_true'] at hdot
    rw [FieldPath.split_of_not_dotted hdot]
  · rw [hrelation] at h
    cases h

/-- The last of the steps that a path's beginnings lead to is that of the
path. -/
theorem leads_getLast? {path : RelationPath} {steps : List Step}
    (h : List.Forall₂ scope.Leads path.inits.tail steps) (hpath : path ≠ []) :
    ∃ last, steps.getLast? = some last ∧ scope.Leads path last := by
  obtain ⟨before, relation, rfl⟩ : ∃ before relation, path = before ++ [relation] :=
    ⟨_, _, (List.dropLast_append_getLast hpath).symm⟩
  rw [RelationPath.inits_tail_snoc, ← List.forall₂_reverse_iff, List.reverse_append] at h
  obtain ⟨last, rest, hlast, -, hreverse⟩ := List.forall₂_cons_left_iff.1 h
  exact ⟨last, by rw [← List.head?_reverse, hreverse, List.head?_cons], hlast⟩

/-- A field reads the column of its last segment: in the scope's own mapping
if it follows no relations, and otherwise in the mapping that they lead
to. -/
theorem Reads.columnRef (h : scope.Reads dialect field ref) :
    ((FieldPath.split field).1 = []
        ∧ scope.mapping.columnRef scope.tableAlias "" (FieldPath.split field).2 = .ok ref)
      ∨ ∃ last, scope.Leads (FieldPath.split field).1 last
        ∧ last.target.columnRef last.pathAlias "" (FieldPath.split field).2 = .ok ref := by
  obtain ⟨⟨resolved, hresolve, rfl⟩, -⟩ := h
  have hleads := leads_of_resolve hresolve
  obtain ⟨steps, hsteps, h⟩ := bind_eq_ok.1 hresolve
  obtain ⟨column, hcolumn, h⟩ := bind_eq_ok.1 h
  cases pure_eq_ok.1 h
  by_cases hpath : (FieldPath.split field).1 = []
  · rw [FieldPath.relationPaths, hpath] at hleads
    cases List.forall₂_nil_left_iff.1 hleads
    exact Or.inl ⟨hpath, hcolumn⟩
  · obtain ⟨last, hlast, hleads⟩ := leads_getLast? hleads hpath
    rw [hlast] at hcolumn
    exact Or.inr ⟨last, hleads, hcolumn⟩

/-- A field reads a column of the scope's own mapping if it follows no
relations, and one of the mapping that they lead to otherwise. -/
theorem Reads.column (h : scope.Reads dialect field ref) :
    ((FieldPath.split field).1 = [] ∧ ref.table = scope.tableAlias
        ∧ scope.mapping.HasColumn ref.name)
      ∨ ∃ last, scope.Leads (FieldPath.split field).1 last ∧ ref.table = last.pathAlias
        ∧ last.target.HasColumn ref.name := by
  rcases h.columnRef with ⟨hpath, hcolumn⟩ | ⟨last, hleads, hcolumn⟩
  · exact Or.inl ⟨hpath, Mapping.of_columnRef hcolumn⟩
  · exact Or.inr ⟨last, hleads, Mapping.of_columnRef hcolumn⟩

/-- A field that follows no relations reads a column of the scope's own
table. -/
theorem Reads.own (h : scope.Reads dialect field ref) (hpath : (FieldPath.split field).1 = []) :
    ref.table = scope.tableAlias ∧ scope.mapping.HasColumn ref.name := by
  rcases h.column with ⟨-, hown⟩ | ⟨last, ⟨before, relation, -, hpath', -, -⟩, -⟩
  · exact hown
  · rw [hpath] at hpath'
    simp at hpath'

/-- What is compiled in the filter or the order of an included relation
reads the relation's own table. -/
theorem readsOwn_of_nested {relation : String} {fields : List String}
    (hrelation : scope.relation = some relation)
    (h : ∀ field ∈ fields, ∃ f, scope.field dialect field = .ok f) :
    scope.ReadsOwn dialect fields := by
  intro field hfield
  obtain ⟨f, hf⟩ := h field hfield
  obtain ⟨ref, hreads⟩ := reads_of_field hf
  exact ⟨ref, hreads, hreads.own (split_of_nested hrelation hf)⟩

end Scope

-- ============================================================= compiled

section Compiled

variable {dialect : Dialect} {scope : Scope}

mutual

/-- Every field of a compiled element was compiled. -/
theorem Element.field_of_compile : ∀ {element : Element} {f : Fragment},
    element.compile dialect scope = .ok f →
    ∀ path ∈ element.fields, ∃ g, scope.field dialect path = .ok g
  | .value v, f, _ => fun path hpath => absurd hpath List.not_mem_nil
  | .field path, f, h => fun path' hpath => ⟨f, List.mem_singleton.1 hpath ▸ h⟩
  | .method name args, f, h => by
      obtain ⟨template, -, h⟩ := bind_eq_ok.1 h
      obtain ⟨compiled, hargs, -⟩ := bind_eq_ok.1 h
      exact Element.field_of_compileArgs hargs
termination_by structural element => element

theorem Element.field_of_compileArgs : ∀ {args : List Element} {sofar done : Arguments},
    Element.compileArgs dialect scope sofar args = .ok done →
    ∀ path ∈ Element.collectEach (fun _ => []) (fun path => [path]) args,
      ∃ g, scope.field dialect path = .ok g
  | [], sofar, done, _ => fun path hpath => absurd hpath List.not_mem_nil
  | arg :: rest, sofar, done, h => by
      obtain ⟨f, hf, h⟩ := bind_eq_ok.1 h
      obtain ⟨more, -, h⟩ := bind_eq_ok.1 h
      exact List.forall_mem_append.2
        ⟨Element.field_of_compile hf, Element.field_of_compileArgs h⟩
termination_by structural args => args

end

/-- Every element of a compiled list was compiled. -/
theorem Element.compile_of_compileList {elements : List Element} {f : Fragment}
    (h : Element.compileList dialect scope elements = .ok f) :
    ∀ element ∈ elements, ∃ g, element.compile dialect scope = .ok g := by
  obtain ⟨fs, hfs, -⟩ := bind_eq_ok.1 h
  exact fun element helement => ok_of_mem_mapM hfs helement

mutual

/-- Every element of a compiled clause was compiled, written or not. -/
theorem Clause.compile_elements : ∀ {clause : Clause} {f : Fragment},
    clause.compile dialect scope = .ok f →
    ∀ element ∈ clause.elements, ∃ g, element.compile dialect scope = .ok g
  | .compare comparison lhs rhs, f, h => by
      obtain ⟨left, hleft, h⟩ := bind_eq_ok.1 h
      obtain ⟨right, hright, -⟩ := bind_eq_ok.1 h
      simp only [Clause.elements, List.forall_mem_cons]
      exact ⟨⟨left, hleft⟩, ⟨right, hright⟩, by simp⟩
  | .not operand, f, h => by
      obtain ⟨inner, hinner, -⟩ := bind_eq_ok.1 h
      show ∀ element ∈ operand.elements, _
      exact Clause.compile_elements hinner
  | .and operands, f, h => by
      rw [Clause.compile] at h
      split at h
      · obtain ⟨_, hthrow, -⟩ := bind_eq_ok.1 h
        exact absurd hthrow throw_ne_ok
      · obtain ⟨fs, hfs, -⟩ := bind_eq_ok.1 h
        exact Clause.compileEach_elements hfs
  | .or operands, f, h => by
      rw [Clause.compile] at h
      split at h
      · obtain ⟨_, hthrow, -⟩ := bind_eq_ok.1 h
        exact absurd hthrow throw_ne_ok
      · obtain ⟨fs, hfs, -⟩ := bind_eq_ok.1 h
        exact Clause.compileEach_elements hfs
  | .isIn lhs rows, f, h => by
      obtain ⟨-, left, hleft, hrows⟩ := Clause.of_compileIn h
      refine List.forall_mem_append.2 ⟨Element.compile_of_compileList hleft, ?_⟩
      intro element helement
      obtain ⟨row, hrow, helement⟩ := List.mem_flatten.1 helement
      rcases hrows with ⟨rfl, -⟩ | ⟨-, tuples, -, -, htuples, -⟩
      · cases hrow
      · obtain ⟨tuple, htuple⟩ := ok_of_mem_mapM htuples hrow
        obtain ⟨list, hlist, -⟩ := bind_eq_ok.1 htuple
        exact Element.compile_of_compileList hlist element helement
  | .truthy element, f, h => by
      simp only [Clause.elements, List.forall_mem_singleton]
      exact ⟨f, h⟩
termination_by structural clause => clause

theorem Clause.compileEach_elements : ∀ {clauses : List Clause} {fs : List Fragment},
    Clause.compileEach dialect scope clauses = .ok fs →
    ∀ element ∈ Clause.elementsEach clauses, ∃ g, element.compile dialect scope = .ok g
  | [], fs, _ => fun element helement => absurd helement List.not_mem_nil
  | clause :: rest, fs, h => by
      obtain ⟨f, hf, h⟩ := bind_eq_ok.1 h
      obtain ⟨more, hmore, -⟩ := bind_eq_ok.1 h
      exact List.forall_mem_append.2
        ⟨Clause.compile_elements hf, Clause.compileEach_elements hmore⟩
termination_by structural clauses => clauses

end

/-- Every field written in a compiled clause was compiled. -/
theorem Clause.field_of_compile {clause : Clause} {f : Fragment}
    (h : clause.compile dialect scope = .ok f) :
    ∀ path ∈ clause.fields, ∃ g, scope.field dialect path = .ok g := by
  intro path hpath
  obtain ⟨element, helement, hpath⟩ :=
    List.mem_flatMap.1 (Clause.atFields_subset _ clause hpath)
  obtain ⟨g, hg⟩ := Clause.compile_elements h element helement
  exact Element.field_of_compile hg path hpath

end Compiled

end RecordQuery
