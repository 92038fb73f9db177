/-
The slots of a row. The structures of a layout, each before those below
it, fill the row from left to right without a gap: their slots, with the
columns that are loaded from them, are the selected columns with their
positions. So a value is loaded from the place where its column is
selected, however deep its structure stands.
-/
import RecordQuery.Loading.Node
import RecordQuery.Proofs.Layout.Built

namespace RecordQuery

namespace Structure

-- =========================================================== vocabulary

mutual

/-- A structure and all that stand below it, each before those below. -/
def preorder : Structure → List Structure
  | ⟨m, tableAlias, offset, keys, fields, relations⟩ =>
    ⟨m, tableAlias, offset, keys, fields, relations⟩ :: preorderBelow relations
termination_by structural s => s

/-- The structures of relations and all that stand below them. -/
def preorderBelow : List (Relation × Structure) → List Structure
  | [] => []
  | (_, s) :: rest => s.preorder ++ preorderBelow rest
termination_by structural relations => relations

end

/-- The positions of the key columns. -/
def keyRange (s : Structure) : List Nat :=
  List.range' s.offset s.keys.length

/-- The positions of the data columns. -/
def fieldRange (s : Structure) : List Nat :=
  List.range' s.keyEnd s.fields.length

/-- The columns that a structure loads, each with the position it is loaded
from. -/
def slots (s : Structure) : List (StructureColumn × Nat) :=
  s.keys.zipIdx s.offset ++ s.fields.zipIdx s.keyEnd

theorem map_snd_slots (s : Structure) : s.slots.map Prod.snd = s.keyRange ++ s.fieldRange := by
  unfold slots
  rw [List.map_append, List.zipIdx_map_snd, List.zipIdx_map_snd, keyRange, fieldRange]

theorem slots_eq_zipIdx (s : Structure) : s.slots = (s.keys ++ s.fields).zipIdx s.offset := by
  unfold slots
  rw [List.zipIdx_append, keyEnd]

theorem map_fst_slots (s : Structure) : s.slots.map Prod.fst = s.keys ++ s.fields := by
  rw [slots_eq_zipIdx, List.zipIdx_map_fst]

theorem preorder_eq (s : Structure) : s.preorder = s :: preorderBelow s.relations := by
  cases s
  rfl

theorem columns_eq (s : Structure) :
    s.columns = (s.keys ++ s.fields).map StructureColumn.ref ++ columnsBelow s.relations := by
  rw [List.map_append]
  cases s
  rfl

mutual

/-- There are as many columns as the structure is wide. -/
theorem length_columns : ∀ s : Structure, s.columns.length = s.width
  | ⟨_, _, _, keys, fields, relations⟩ => by
      rw [columns, width, List.length_append, List.length_append, List.length_map,
        List.length_map, length_columnsBelow relations]
termination_by structural s => s

/-- There are as many columns below as the structures below are wide. -/
theorem length_columnsBelow : ∀ relations : List (Relation × Structure),
    (columnsBelow relations).length = widths relations
  | [] => rfl
  | (_, s) :: rest => by
      rw [columnsBelow, widths, List.length_append, length_columns s, length_columnsBelow rest]
termination_by structural relations => relations

end

-- ============================================================== layout

variable {catalog : Catalog} {s : Structure}

/-- A slot with the column that is selected for it. -/
def selection (slot : StructureColumn × Nat) : ColumnRef × Nat :=
  (slot.1.ref, slot.2)

/-- Structures that follow each other fill the row from the first position
on, if each fills the row from its own. -/
theorem selection_slots_below {relations : List (Relation × Structure)}
    (hall : ∀ e ∈ relations,
      (e.2.preorder.flatMap slots).map selection = e.2.columns.zipIdx e.2.offset) :
    ∀ {start : Nat}, PlacedFrom start relations →
      ((preorderBelow relations).flatMap slots).map selection
        = (columnsBelow relations).zipIdx start := by
  induction relations with
  | nil =>
      intro start _
      rfl
  | cons e rest ih =>
      intro start hplaced
      obtain ⟨r, s⟩ := e
      obtain ⟨rfl, hrest⟩ := hplaced
      obtain ⟨hhead, hall⟩ := List.forall_mem_cons.1 hall
      rw [preorderBelow, columnsBelow, List.flatMap_append, List.map_append,
        List.zipIdx_append, hhead, ih hall hrest, length_columns]

/-- The slots of a built structure and of all below it, in order, are its
columns with their positions. -/
theorem Built.selection_slots (h : s.Built catalog) :
    (s.preorder.flatMap slots).map selection = s.columns.zipIdx s.offset := by
  induction h with
  | @mk s keys fields relation target placed below ih =>
      rw [preorder_eq, columns_eq, List.flatMap_cons, List.map_append, List.zipIdx_append,
        slots_eq_zipIdx, List.zipIdx_map, selection_slots_below ih placed, List.length_map,
        List.length_append, fieldEnd_eq]
      rfl

/-- The key and data ranges of a built structure and of all below it follow
each other without a gap. -/
theorem Built.ranges_preorder (h : s.Built catalog) :
    (s.preorder.flatMap fun t => t.keyRange ++ t.fieldRange)
      = List.range' s.offset s.width := by
  have hsnd := congrArg (List.map Prod.snd) h.selection_slots
  rw [List.zipIdx_map_snd, length_columns, List.map_map, List.map_flatMap] at hsnd
  rw [← hsnd]
  exact List.flatMap_congr fun t _ => (map_snd_slots t).symm

/-- The column selected at a slot is the one loaded from it. -/
theorem Built.getElem?_columns (h : s.Built catalog) {t : Structure} (ht : t ∈ s.preorder)
    {c : StructureColumn} {i : Nat} (hslot : (c, i) ∈ t.slots) :
    s.offset ≤ i ∧ s.columns[i - s.offset]? = some c.ref := by
  have hmem : (c.ref, i) ∈ s.columns.zipIdx s.offset := by
    rw [← h.selection_slots]
    exact List.mem_map_of_mem (List.mem_flatMap.2 ⟨t, ht, hslot⟩)
  exact List.mk_mem_zipIdx_iff_le_and_getElem?_sub.1 hmem

theorem mem_preorderBelow {relations : List (Relation × Structure)} {t : Structure} :
    t ∈ preorderBelow relations ↔ ∃ e ∈ relations, t ∈ e.2.preorder := by
  induction relations with
  | nil => simp [preorderBelow]
  | cons e rest ih =>
      obtain ⟨r, s⟩ := e
      simp [preorderBelow, ih]

/-- The structures below a built one are built, for mappings of the
catalog. -/
theorem Built.of_mem_preorder (h : s.Built catalog) {t : Structure} (ht : t ∈ s.preorder) :
    t.Built catalog ∧ (t = s ∨ t.mapping ∈ catalog.mappings) := by
  induction h with
  | @mk s keys fields relation target placed below ih =>
      rw [preorder_eq, List.mem_cons, mem_preorderBelow] at ht
      rcases ht with rfl | ⟨e, he, ht⟩
      · exact ⟨.mk keys fields relation target placed below, Or.inl rfl⟩
      · obtain ⟨hbuilt, heq | hmem⟩ := ih e he ht
        · subst heq
          exact ⟨hbuilt, Or.inr (Catalog.mem_of_mapping? (target e he)).1⟩
        · exact ⟨hbuilt, Or.inr hmem⟩

/-- A built structure has as many keys as its mapping's key has columns. -/
theorem Built.length_keys (h : s.Built catalog) (hm : s.mapping.Consistent) :
    s.keys.length = s.mapping.primaryKey.length := by
  cases h with
  | mk keys _ _ _ _ _ =>
      obtain ⟨outputPrefix, hkeys⟩ := keys
      rw [hkeys, Mapping.keyStructure, List.length_mapIdx, hm.length_keyColumns]

-- ============================================================= loading

/-- Columns put beside the part of a row from a position on are put beside
the values at their slots. -/
theorem zip_slice {row : Row} {columns : List StructureColumn} :
    ∀ {start : Nat}, (∀ slot ∈ columns.zipIdx start, slot.2 < row.length) →
      columns.zip ((row.drop start).take columns.length)
        = (columns.zipIdx start).map fun slot => (slot.1, row.getD slot.2 .null) := by
  induction columns with
  | nil =>
      intro start _
      rfl
  | cons c rest ih =>
      intro start h
      rw [List.zipIdx_cons, List.forall_mem_cons] at h
      obtain ⟨hlt, hrest⟩ := h
      have hget : row.getD start .null = row[start] := by
        rw [List.getD_eq_getElem?_getD, List.getElem?_eq_getElem hlt, Option.getD_some]
      rw [List.drop_eq_getElem_cons hlt, List.length_cons, List.take_succ_cons,
        List.zip_cons_cons, ih hrest, List.zipIdx_cons, List.map_cons, hget]

/-- Loading writes to each column the value at its slot. -/
theorem load_eq_slots {row : Row} (h : ∀ slot ∈ s.slots, slot.2 < row.length) :
    s.load row = s.slots.foldlM
      (fun record slot => s.mapping.write slot.1.column record (row.getD slot.2 .null))
      s.mapping.blank := by
  unfold slots at h
  rw [List.forall_mem_append] at h
  unfold load keyOf fieldsOf
  rw [zip_slice h.1, zip_slice h.2, slots, ← List.map_append, List.foldlM_map]

end Structure

-- ======================================================= the statement

variable {catalog : Catalog} {dialect : Dialect} {m : Mapping} {inc : IncludeTree}
  {tableAlias : String} {offset : Nat} {limit : Option Nat} {plan : Plan}

/-- The columns of a statement are those of the layout. -/
theorem Plan.columns_layout (plan : Plan) :
    plan.keyColumns ++ plan.selectedColumns = plan.layout.columns := by
  rw [Structure.columns_eq, List.map_append, List.append_assoc]
  rfl

theorem Plan.width_layout (plan : Plan) : plan.layout.width = plan.width := by
  rw [Plan.width, ← List.length_append, Plan.columns_layout, Structure.length_columns]

/-- A statement begins with the columns that it selects. -/
theorem Plan.sql_select (plan : Plan) : ∃ rest,
    plan.sql = "SELECT " ++ ", ".intercalate
      ((plan.keyColumns ++ plan.selectedColumns).map (ColumnRef.select plan.dialect))
      ++ " FROM " ++ rest := by
  unfold Plan.sql
  simp only [String.append_assoc]
  exact ⟨_, rfl⟩

/-- The layout of a plan agrees with the columns its statement selects. These
are written behind one another where the statement begins. The ranges of
the structures, each structure before those below it, follow each other
and cover the row; each structure has the keys of its mapping; and
whatever a structure loads from a slot is selected in that place. -/
theorem Plan.slots_match_selection (catalog : Catalog) (dialect : Dialect) (m : Mapping)
    (inc : IncludeTree) (tableAlias : String) (offset : Nat) (limit : Option Nat) (plan : Plan)
    (h : Plan.build catalog dialect m inc tableAlias offset limit = .ok plan) :
    (∃ rest, plan.sql = "SELECT " ++ ", ".intercalate
        ((plan.keyColumns ++ plan.selectedColumns).map (ColumnRef.select dialect))
        ++ " FROM " ++ rest)
      ∧ (plan.layout.preorder.flatMap fun s => s.keyRange ++ s.fieldRange)
        = List.range plan.width
      ∧ plan.layout.width = plan.width
      ∧ (m ∈ catalog.mappings →
        ∀ s ∈ plan.layout.preorder, s.keys.length = s.mapping.primaryKey.length)
      ∧ ∀ s ∈ plan.layout.preorder,
        s.slots.map Prod.snd = s.keyRange ++ s.fieldRange
        ∧ (∀ c i, (c, i) ∈ s.slots →
          (plan.keyColumns ++ plan.selectedColumns)[i]? = some c.ref)
        ∧ ∀ row : Row, row.length = plan.width →
          s.load row = s.slots.foldlM
            (fun record slot => s.mapping.write slot.1.column record (row.getD slot.2 .null))
            s.mapping.blank := by
  obtain ⟨rfl, -⟩ := Plan.names_of_build h
  obtain ⟨hbuilt, hmapping, hoffset⟩ := Plan.layout_built h
  have hcolumn : ∀ s ∈ plan.layout.preorder, ∀ c i, (c, i) ∈ s.slots →
      plan.layout.columns[i]? = some c.ref := by
    intro s hs c i hslot
    obtain ⟨-, hget⟩ := hbuilt.getElem?_columns hs hslot
    rwa [hoffset, Nat.sub_zero] at hget
  refine ⟨plan.sql_select, ?_, Plan.width_layout plan, fun hm s hs => ?_,
    fun s hs => ⟨s.map_snd_slots, ?_, ?_⟩⟩
  · rw [hbuilt.ranges_preorder, hoffset, Plan.width_layout, List.range_eq_range']
  · obtain ⟨hs, rfl | hmem⟩ := hbuilt.of_mem_preorder hs
    · exact hs.length_keys (Catalog.consistent (hmapping ▸ hm))
    · exact hs.length_keys (Catalog.consistent hmem)
  · intro c i hslot
    rw [Plan.columns_layout]
    exact hcolumn s hs c i hslot
  · intro row hrow
    refine Structure.load_eq_slots fun slot hslot => ?_
    obtain ⟨hlt, -⟩ := List.getElem?_eq_some_iff.1 (hcolumn s hs slot.1 slot.2 hslot)
    rwa [Structure.length_columns, Plan.width_layout, ← hrow] at hlt

/-- A mapping with a key of two columns and a relation of each kind, both to
the mapping itself. -/
def memberMapping : Mapping where
  model := "Member"
  table := "members"
  columns :=
    [{ name := "club", field := "club", type := .text },
     { name := "number", field := "number", type := .int64 },
     { name := "sponsor_club", field := "sponsorClub", type := .optional .text },
     { name := "sponsor_number", field := "sponsorNumber", type := .optional .int64 }]
  relations :=
    [{ field := "sponsor", kind := .one, target := "Member", targetTable := "members"
       pairs := [⟨"sponsor_club", "club"⟩, ⟨"sponsor_number", "number"⟩] },
     { field := "sponsored", kind := .many, target := "Member", targetTable := "members"
       pairs := [⟨"club", "sponsor_club"⟩, ⟨"number", "sponsor_number"⟩] }]
  primaryKey := ["club", "number"]

def memberCatalog : Catalog := ⟨[memberMapping], by decide⟩

/-- Relations below a relation that has another one behind it. -/
def memberInclude : IncludeTree where
  fields := ["number"]
  relations :=
    [("sponsored", { relations := [("sponsored", { fields := ["sponsorClub"] })] }),
     ("sponsor", { fields := ["number", "club"] })]

/-- The ranges go on behind a nested relation. -/
theorem Plan.slots_of_nested_relations : ∃ plan,
    Plan.build memberCatalog Flavor.postgresql.dialect memberMapping memberInclude "m" 0 none
        = .ok plan
      ∧ memberMapping ∈ memberCatalog.mappings
      ∧ plan.layout.preorder.map Structure.offset = [0, 3, 9, 12]
      ∧ (plan.layout.preorder.flatMap fun s => s.keyRange ++ s.fieldRange)
        = List.range plan.width
      ∧ ∀ s ∈ plan.layout.preorder, s.keys.length = s.mapping.primaryKey.length := by
  have hmem : memberMapping ∈ memberCatalog.mappings := List.mem_singleton_self _
  refine ⟨_, rfl, hmem, by decide, ?_⟩
  obtain ⟨-, hranges, -, hkeys, -⟩ := Plan.slots_match_selection memberCatalog
    Flavor.postgresql.dialect memberMapping memberInclude "m" 0 none _ rfl
  exact ⟨hranges, hkeys hmem⟩

end RecordQuery
