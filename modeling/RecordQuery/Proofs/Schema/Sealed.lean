/-
What sealing a catalog assures of each of its mappings. The check of a
mapping reports the first fault it meets, and carries the names that are
taken along while it looks for it; `Mapping.WellFormed` says of the
mapping as a whole what is left when there is none to meet. Of this,
`Mapping.Consistent` keeps what the rest of the library relies on.
-/
import Mathlib.Data.List.Nodup
import RecordQuery.Schema.Catalog

namespace RecordQuery

-- ================================================================ names

/-- Things with names of their own, none of them taken before. -/
def Fresh {α : Type} (name : α → String) (taken : List String) (things : List α) : Prop :=
  (things.map name).Nodup ∧ ∀ x ∈ things, name x ∉ taken

namespace Fresh

variable {α : Type} {name : α → String} {taken : List String} {x : α} {rest : List α}

theorem nil : Fresh name taken [] :=
  ⟨List.nodup_nil, fun _ hx => absurd hx List.not_mem_nil⟩

/-- A first thing takes its name from those behind it. -/
theorem cons_iff : Fresh name taken (x :: rest)
    ↔ name x ∉ taken ∧ Fresh name (name x :: taken) rest := by
  constructor
  · rintro ⟨hnodup, htaken⟩
    rw [List.map_cons, List.nodup_cons] at hnodup
    obtain ⟨hx, hrest⟩ := List.forall_mem_cons.1 htaken
    refine ⟨hx, hnodup.2, fun y hy hmem => ?_⟩
    rcases List.mem_cons.1 hmem with hsame | hmem
    · exact hnodup.1 (hsame ▸ List.mem_map_of_mem hy)
    · exact hrest y hy hmem
  · rintro ⟨hx, hnodup, hrest⟩
    refine ⟨List.nodup_cons.2 ⟨fun hmem => ?_, hnodup⟩, List.forall_mem_cons.2 ⟨hx, ?_⟩⟩
    · obtain ⟨y, hy, hsame⟩ := List.mem_map.1 hmem
      exact hrest y hy (hsame ▸ List.mem_cons_self)
    · exact fun y hy hmem => hrest y hy (List.mem_cons_of_mem _ hmem)

/-- Where no name was taken, only the names of the things count. -/
theorem nil_taken_iff {things : List α} : Fresh name [] things ↔ (things.map name).Nodup :=
  ⟨And.left, fun h => ⟨h, fun _ _ => List.not_mem_nil⟩⟩

end Fresh

-- ==================================================== one mapping alone

namespace Mapping

/-- A column of the name is mapped. -/
def Maps (m : Mapping) (name : String) : Prop :=
  ∃ c ∈ m.columns, c.name = name

/-- A mapping with a key, whose columns have names of their own, whose
columns and relations have fields of their own, and whose relations and
keys are made of its columns. -/
structure WellFormed (m : Mapping) : Prop where
  keyed : m.primaryKey ≠ []
  names : (m.columns.map Column.name).Nodup
  fields : (m.columns.map Column.field ++ m.relations.map Relation.field).Nodup
  joined : ∀ r ∈ m.relations, r.pairs ≠ [] ∧ ∀ p ∈ r.pairs, m.Maps p.own
  keys : ∀ key ∈ m.primaryKey :: m.uniqueKeys, ∀ name ∈ key, m.Maps name

/-- A mapping whose columns and relations have fields of their own and
whose key columns are mapped. -/
structure Consistent (m : Mapping) : Prop where
  fields : (m.columns.map Column.field).Nodup
  relations : (m.relations.map Relation.field).Nodup
  key : ∀ name ∈ m.primaryKey, (m.column? name).isSome

variable {m : Mapping} {name : String}

theorem isSome_column?_iff : (m.column? name).isSome ↔ m.Maps name := by
  unfold column? Maps
  rw [List.find?_isSome]
  simp only [beq_iff_eq]

theorem isNone_column?_iff : (m.column? name).isNone ↔ ¬ m.Maps name := by
  rw [← isSome_column?_iff, Bool.not_eq_true, Option.isSome_eq_false_iff]

/-- Columns without a fault are those with names and fields of their
own. -/
theorem columnFault?_eq_none_iff {model : String} {columns : List Column} :
    ∀ {names fields : List String}, columnFault? model names fields columns = none
      ↔ Fresh Column.name names columns ∧ Fresh Column.field fields columns := by
  induction columns with
  | nil => exact fun {_ _} => ⟨fun _ => ⟨.nil, .nil⟩, fun _ => rfl⟩
  | cons c rest ih =>
      intro names fields
      rw [columnFault?, Fresh.cons_iff, Fresh.cons_iff]
      by_cases hname : c.name ∈ names
      · simp [hname]
      · by_cases hfield : c.field ∈ fields
        · simp [hname, hfield]
        · rw [if_neg hname, if_neg hfield, ih]
          simp [hname, hfield]

/-- Relations without a fault are those with fields of their own that are
joined on columns of the mapping. -/
theorem relationFault?_eq_none_iff {relations : List Relation} :
    ∀ {fields : List String}, m.relationFault? fields relations = none
      ↔ Fresh Relation.field fields relations
        ∧ ∀ r ∈ relations, r.pairs ≠ [] ∧ ∀ p ∈ r.pairs, m.Maps p.own := by
  induction relations with
  | nil => exact fun {_} => ⟨fun _ => ⟨.nil, by simp⟩, fun _ => rfl⟩
  | cons r rest ih =>
      intro fields
      rw [relationFault?, Fresh.cons_iff, List.forall_mem_cons]
      by_cases hfield : r.field ∈ fields
      · simp [hfield]
      · by_cases hpairs : r.pairs = []
        · simp [hfield, hpairs]
        · rw [if_neg hfield, if_neg (by simpa using hpairs)]
          cases hfind : r.pairs.find? fun p => (m.column? p.own).isNone with
          | some p =>
              have hnone := List.find?_some hfind
              have hmem := List.mem_of_find?_eq_some hfind
              exact ⟨nofun, fun h => absurd (h.2.1.2 p hmem) (isNone_column?_iff.1 hnone)⟩
          | none =>
              have howns : ∀ p ∈ r.pairs, m.Maps p.own := by
                intro p hp
                have hfound := List.find?_eq_none.1 hfind p hp
                rwa [isNone_column?_iff, not_not] at hfound
              rw [ih]
              exact ⟨fun h => ⟨⟨hfield, h.1⟩, ⟨hpairs, howns⟩, h.2⟩, fun h => ⟨h.1.2, h.2.2⟩⟩

/-- Keys without a fault are those of mapped columns. -/
theorem keyFault?_eq_none_iff :
    m.keyFault? = none ↔ ∀ key ∈ m.primaryKey :: m.uniqueKeys, ∀ name ∈ key, m.Maps name := by
  unfold keyFault?
  rw [Option.map_eq_none_iff, List.find?_eq_none]
  simp only [isNone_column?_iff, not_not, List.mem_flatten]
  exact ⟨fun h key hkey name hname => h name ⟨key, hkey, hname⟩,
    fun h name ⟨key, hkey, hname⟩ => h key hkey name hname⟩

/-- A mapping has no fault if and only if it is well-formed. -/
theorem fault?_eq_none_iff : m.fault? = none ↔ m.WellFormed := by
  unfold fault?
  by_cases hkeyed : m.primaryKey = []
  · rw [if_pos (List.isEmpty_iff.2 hkeyed)]
    exact ⟨nofun, fun h => absurd hkeyed h.keyed⟩
  · rw [if_neg (by simpa using hkeyed), Option.or_eq_none_iff, Option.or_eq_none_iff,
      columnFault?_eq_none_iff, relationFault?_eq_none_iff, keyFault?_eq_none_iff,
      Fresh.nil_taken_iff, Fresh.nil_taken_iff]
    constructor
    · rintro ⟨⟨hnames, hfields⟩, ⟨⟨hrelations, hapart⟩, hjoined⟩, hkeys⟩
      refine ⟨hkeyed, hnames, List.nodup_append.2 ⟨hfields, hrelations, ?_⟩, hjoined, hkeys⟩
      rintro field hfield other hother rfl
      obtain ⟨r, hr, rfl⟩ := List.mem_map.1 hother
      exact hapart r hr hfield
    · intro h
      obtain ⟨hfields, hrelations, hapart⟩ := List.nodup_append.1 h.fields
      refine ⟨⟨h.names, hfields⟩, ⟨⟨hrelations, fun r hr hfield => ?_⟩, h.joined⟩, h.keys⟩
      exact hapart _ hfield _ (List.mem_map_of_mem hr) rfl

/-- A well-formed mapping is consistent. -/
theorem WellFormed.consistent (h : m.WellFormed) : m.Consistent := by
  obtain ⟨hfields, hrelations, -⟩ := List.nodup_append.1 h.fields
  exact ⟨hfields, hrelations, fun name hname =>
    isSome_column?_iff.2 (h.keys m.primaryKey List.mem_cons_self name hname)⟩

/-- The key columns of a consistent mapping are those named in its key. -/
theorem Consistent.names_keyColumns (h : m.Consistent) :
    m.keyColumns.map Column.name = m.primaryKey := by
  have hkey := h.key
  unfold keyColumns
  generalize m.primaryKey = names at hkey ⊢
  induction names with
  | nil => rfl
  | cons name rest ih =>
      obtain ⟨c, hc⟩ := Option.isSome_iff_exists.1 (hkey name List.mem_cons_self)
      have hname : c.name = name := by simpa using List.find?_some hc
      rw [List.filterMap_cons_some hc, List.map_cons, hname,
        ih fun other hother => hkey other (List.mem_cons_of_mem _ hother)]

/-- A consistent mapping has a key column for each name in its key. -/
theorem Consistent.length_keyColumns (h : m.Consistent) :
    m.keyColumns.length = m.primaryKey.length := by
  rw [← h.names_keyColumns, List.length_map]

end Mapping

-- ==================================================== mappings together

namespace Catalog

variable {catalog : Catalog} {m : Mapping}

/-- Registering meets no fault if and only if the mappings are well-formed
and of different models. -/
theorem registrationFault?_eq_none_iff {mappings : List Mapping} :
    ∀ {models : List String}, registrationFault? models mappings = none
      ↔ (∀ m ∈ mappings, m.WellFormed) ∧ Fresh Mapping.model models mappings := by
  induction mappings with
  | nil => exact fun {_} => ⟨fun _ => ⟨by simp, .nil⟩, fun _ => rfl⟩
  | cons m rest ih =>
      intro models
      rw [registrationFault?, Option.or_eq_none_iff, Mapping.fault?_eq_none_iff,
        List.forall_mem_cons, Fresh.cons_iff]
      by_cases hmodel : m.model ∈ models
      · simp [hmodel]
      · rw [if_neg hmodel, ih]
        simp only [hmodel, not_false_eq_true, true_and, and_assoc]

/-- The mappings of a catalog are well-formed. -/
theorem wellFormed (h : m ∈ catalog.mappings) : m.WellFormed := by
  have hnone := catalog.fault?_mappings
  unfold fault? at hnone
  rw [Option.or_eq_none_iff, registrationFault?_eq_none_iff] at hnone
  exact hnone.1.1 m h

/-- The mappings of a catalog are consistent. -/
theorem consistent (h : m ∈ catalog.mappings) : m.Consistent :=
  (wellFormed h).consistent

/-- The columns of a mapping of a catalog have different names. -/
theorem nodup_names (h : m ∈ catalog.mappings) : (m.columns.map Column.name).Nodup :=
  (wellFormed h).names

/-- The mappings of a catalog have keys. -/
theorem primaryKey_ne_nil (h : m ∈ catalog.mappings) : m.primaryKey ≠ [] :=
  (wellFormed h).keyed

/-- What is found for a model is a mapping of the catalog, and of that
model. -/
theorem mem_of_mapping? {model : String} (h : catalog.mapping? model = some m) :
    m ∈ catalog.mappings ∧ m.model = model :=
  ⟨List.mem_of_find?_eq_some h, by simpa using List.find?_some h⟩

theorem consistent_of_mapping? {model : String} (h : catalog.mapping? model = some m) :
    m.Consistent :=
  consistent (mem_of_mapping? h).1

end Catalog

end RecordQuery
