/-
The rows that records stand for. A join pairs every record with each of its
related records, and the related records of one relation with those of
every other: the rows of a record are the product of the rows of its
relations, behind the values of its own columns. A relation without
related records adds one block of nulls.

A structure selects some of the columns of a mapping and includes some of
its relations; what it covers of a record is all that the rows can tell.
-/
import RecordQuery.Proofs.Loading.Finish
import RecordQuery.Proofs.Value.KeyText

namespace RecordQuery

-- =============================================================== getters

namespace Mapping

/-- What the getter of a column reads from a record. -/
def valueOf (m : Mapping) (t : Record) (c : Column) : Value :=
  (m.read c t).toOption.getD .null

/-- A record of the mapping's model that holds in every column what the
column's type writes. -/
structure Typed (m : Mapping) (t : Record) : Prop where
  model : t.model = m.model
  stored : ∀ c ∈ m.columns, ∃ x : c.type.Carrier, m.read c t = .ok (c.type.store x)

variable {m : Mapping} {t : Record} {c : Column}

/-- What a getter reads is taken by its column as it is. -/
theorem Typed.normalize_valueOf (h : m.Typed t) (hc : c ∈ m.columns) :
    c.type.normalize (m.valueOf t c) = .ok (m.valueOf t c) := by
  obtain ⟨x, hx⟩ := h.stored c hc
  have hvalue : m.valueOf t c = c.type.store x := by
    unfold valueOf
    rw [hx]
    rfl
  rw [hvalue]
  exact c.type.normalize_store x

end Mapping

namespace Structure

-- ============================================================= expanding

/-- The values of a record that a structure has columns for: its key, then
its data. -/
def ownBlock (s : Structure) (t : Record) : List Value :=
  (s.keys ++ s.fields).map fun slot => s.mapping.valueOf t slot.column

/-- The values of the key of a record. -/
def keyFrom (s : Structure) (t : Record) : List Value :=
  s.keys.map fun slot => s.mapping.valueOf t slot.column

/-- Blocks in front of rows, each block in front of every row. -/
def product (blocks rows : List Row) : List Row :=
  blocks.flatMap fun block => rows.map fun row => block ++ row

mutual

/-- The rows of a record: its own values before each of the rows of what
stands below it. -/
def expand : Structure → Record → List Row
  | ⟨m, tableAlias, offset, keys, fields, relations⟩, t =>
    (expandEach relations t).map fun below =>
      ownBlock ⟨m, tableAlias, offset, keys, fields, relations⟩ t ++ below
termination_by structural s => s

/-- The product of the rows of relations, those of the last relation
changing fastest. -/
def expandEach : List (Relation × Structure) → Record → List Row
  | [], _ => [[]]
  | (relation, s) :: rest, t =>
    product
      (if (t.relatedTo relation.field).isEmpty then [List.replicate s.width .null]
        else (t.relatedTo relation.field).flatMap fun child => s.expand child)
      (expandEach rest t)
termination_by structural relations => relations

end

/-- The rows of the related records of one relation, one record behind the
other; nulls if there are none. -/
def blocks (s : Structure) (children : List Record) : List Row :=
  if children.isEmpty then [List.replicate s.width .null]
  else children.flatMap fun child => s.expand child

theorem expand_eq (s : Structure) (t : Record) :
    s.expand t = (expandEach s.relations t).map fun below => s.ownBlock t ++ below := by
  cases s
  rfl

theorem expandEach_cons (relation : Relation) (s : Structure)
    (rest : List (Relation × Structure)) (t : Record) :
    expandEach ((relation, s) :: rest) t
      = product (s.blocks (t.relatedTo relation.field)) (expandEach rest t) := rfl

theorem blocks_nil (s : Structure) : s.blocks [] = [List.replicate s.width .null] := rfl

theorem blocks_of_ne_nil (s : Structure) {children : List Record} (h : children ≠ []) :
    s.blocks children = children.flatMap s.expand := by
  unfold blocks
  rw [if_neg]
  rwa [List.isEmpty_iff]

-- ============================================================= projecting

/-- The value that a structure tells of a column of a record: that of the
record if the column is selected, and the blank value if not. -/
def told (s : Structure) (t : Record) (c : Column) : Value :=
  if c.field ∈ (s.keys ++ s.fields).map fun slot => slot.column.field then s.mapping.valueOf t c
  else c.type.store c.type.blank

mutual

/-- What a structure covers of a record: the key and the selected fields,
and what is covered of the related records of the relations included. All
else is as in a new record. -/
def project : Structure → Record → Record
  | ⟨m, tableAlias, offset, keys, fields, relations⟩, t =>
    { model := m.model
      values := m.columns.map fun c =>
        (c.field, told ⟨m, tableAlias, offset, keys, fields, relations⟩ t c)
      related := m.relations.map fun r =>
        (r.field, ((projectBelow relations t).lookup r.field).getD []) }
termination_by structural s => s

/-- What is covered of the related records, relation by relation. -/
def projectBelow : List (Relation × Structure) → Record → List (String × List Record)
  | [], _ => []
  | (relation, s) :: rest, t =>
    (relation.field, (t.relatedTo relation.field).map fun child => s.project child)
      :: projectBelow rest t
termination_by structural relations => relations

end

theorem project_eq (s : Structure) (t : Record) :
    s.project t = Record.holding s.mapping
      (s.mapping.columns.map fun c => (c.field, s.told t c))
      fun field => ((projectBelow s.relations t).lookup field).getD [] := by
  cases s
  rfl

-- =============================================================== fitting

/-- A record that rows can tell: no key holds a floating-point number, the
related records of a relation have keys of their own that are not null
throughout, and a to-one relation has at most one. -/
inductive Fits : Structure → Record → Prop where
  | mk {s : Structure} {t : Record}
      (typed : s.mapping.Typed t)
      (exact : ∀ v ∈ s.keyFrom t, v.isFloat = false)
      (one : ∀ e ∈ s.relations, e.1.kind = .one → (t.relatedTo e.1.field).length ≤ 1)
      (nodup : ∀ e ∈ s.relations, ((t.relatedTo e.1.field).map e.2.keyFrom).Nodup)
      (present : ∀ e ∈ s.relations, ∀ child ∈ t.relatedTo e.1.field,
        (e.2.keyFrom child).all Value.isNull = false)
      (below : ∀ e ∈ s.relations, ∀ child ∈ t.relatedTo e.1.field, Fits e.2 child) : Fits s t

theorem Fits.exact {s : Structure} {t : Record} (h : s.Fits t) :
    ∀ v ∈ s.keyFrom t, v.isFloat = false := by
  cases h with
  | mk typed exact one nodup present below => exact exact

/-- A record without related records fits by its own values. -/
theorem Fits.of_alone {s : Structure} {t : Record} (typed : s.mapping.Typed t)
    (exact : ∀ v ∈ s.keyFrom t, v.isFloat = false)
    (alone : ∀ e ∈ s.relations, t.relatedTo e.1.field = []) : s.Fits t := by
  have hnone : ∀ e ∈ s.relations, ∀ child, child ∉ t.relatedTo e.1.field := by
    intro e he child hchild
    rw [alone e he] at hchild
    exact List.not_mem_nil hchild
  refine .mk typed exact (fun e he _ => ?_) (fun e he => ?_) (fun e he child hchild => ?_)
    fun e he child hchild => ?_
  · rw [alone e he]
    exact Nat.zero_le 1
  · rw [alone e he]
    exact List.nodup_nil
  · exact absurd hchild (hnone e he child)
  · exact absurd hchild (hnone e he child)

-- ================================================================ shapes

theorem length_ownBlock (s : Structure) (t : Record) : (s.ownBlock t).length = s.ownWidth := by
  unfold ownBlock
  rw [List.length_map, List.length_append, ownWidth]

theorem take_ownBlock (s : Structure) (t : Record) (below : List Value) :
    (s.ownBlock t ++ below).take s.keys.length = s.keyFrom t := by
  unfold ownBlock
  rw [List.map_append, List.append_assoc]
  apply List.take_left'
  rw [List.length_map]

theorem length_of_mem_blocks {s : Structure}
    (hs : ∀ (t : Record) (row : Row), row ∈ s.expand t → row.length = s.width)
    {children : List Record} {row : Row} (h : row ∈ s.blocks children) :
    row.length = s.width := by
  cases children with
  | nil =>
      rw [List.mem_singleton.1 h, List.length_replicate]
  | cons child children =>
      rw [s.blocks_of_ne_nil (List.cons_ne_nil _ _)] at h
      obtain ⟨t, -, h⟩ := List.mem_flatMap.1 h
      exact hs t row h

mutual

/-- The rows of a record are as wide as the structure. -/
theorem length_of_mem_expand : ∀ (s : Structure) (t : Record) (row : Row),
    row ∈ s.expand t → row.length = s.width
  | ⟨m, tableAlias, offset, keys, fields, relations⟩, t, row, h => by
      obtain ⟨below, hbelow, rfl⟩ := List.mem_map.1 h
      rw [List.length_append, length_of_mem_expandEach relations t below hbelow,
        length_ownBlock, width_eq]
termination_by structural s => s

theorem length_of_mem_expandEach : ∀ (relations : List (Relation × Structure)) (t : Record)
    (row : Row), row ∈ expandEach relations t → row.length = widths relations
  | [], t, row, h => by
      rw [List.mem_singleton.1 h, List.length_nil, widths]
  | (relation, s) :: rest, t, row, h => by
      rw [expandEach_cons] at h
      obtain ⟨block, hblock, h⟩ := List.mem_flatMap.1 h
      obtain ⟨more, hmore, rfl⟩ := List.mem_map.1 h
      have hs : ∀ (t : Record) (row : Row), row ∈ s.expand t → row.length = s.width :=
        fun t row => length_of_mem_expand s t row
      rw [List.length_append, length_of_mem_blocks hs hblock,
        length_of_mem_expandEach rest t more hmore, widths]
termination_by structural relations => relations

end

theorem blocks_ne_nil {s : Structure} (hs : ∀ t : Record, s.expand t ≠ [])
    (children : List Record) : s.blocks children ≠ [] := by
  cases children with
  | nil => exact List.cons_ne_nil _ _
  | cons child children =>
      rw [s.blocks_of_ne_nil (List.cons_ne_nil _ _), List.flatMap_cons]
      exact List.append_ne_nil_of_left_ne_nil (hs child) _

mutual

/-- Every record has a row. -/
theorem expand_ne_nil : ∀ (s : Structure) (t : Record), s.expand t ≠ []
  | ⟨m, tableAlias, offset, keys, fields, relations⟩, t => by
      intro h
      exact expandEach_ne_nil relations t (List.map_eq_nil_iff.1 h)
termination_by structural s => s

theorem expandEach_ne_nil : ∀ (relations : List (Relation × Structure)) (t : Record),
    expandEach relations t ≠ []
  | [], t => List.cons_ne_nil _ _
  | (relation, s) :: rest, t => by
      intro h
      rw [expandEach_cons, product, List.flatMap_eq_nil_iff] at h
      have hs : ∀ t : Record, s.expand t ≠ [] := fun t => expand_ne_nil s t
      obtain ⟨block, hblock⟩ :=
        List.exists_mem_of_ne_nil _ (blocks_ne_nil hs (t.relatedTo relation.field))
      exact expandEach_ne_nil rest t (List.map_eq_nil_iff.1 (h block hblock))
termination_by structural relations => relations

end

end Structure

end RecordQuery
