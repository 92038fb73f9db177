/-
Loading one record from a row. Every slot of a built structure loads a
column of its mapping, so loading fails on nothing but a value that a
column does not take, and otherwise each column holds the value of its
last slot.
-/
import RecordQuery.Proofs.Loading.Grouping

namespace RecordQuery

namespace Structure

variable {catalog : Catalog} {s : Structure} {row : Row}

/-- The record of a structure in a row, with nothing attached to it. -/
def recordIn (s : Structure) (row : Row) : Record :=
  { s.mapping.blank with values := s.valuesIn row }

/-- Every slot of a built structure loads a column of its mapping. -/
theorem Built.column_mem (h : s.Built catalog) :
    ∀ slot ∈ s.slots, slot.1.column ∈ s.mapping.columns := by
  intro slot hslot
  have hmem : slot.1 ∈ s.keys ++ s.fields := by
    rw [← map_fst_slots]
    exact List.mem_map_of_mem hslot
  exact (h.of_columns hmem).column

/-- What a record holds once slots are loaded into a blank one. -/
private def loaded (m : Mapping) (row : Row) (slots : List (StructureColumn × Nat)) : Record :=
  { m.blank with values := m.columns.map fun c => (c.field, lastValue row slots c) }

theorem lastValue_append_singleton (slots : List (StructureColumn × Nat))
    (slot : StructureColumn × Nat) (c : Column) {v : Value} (hv : slotValue row slot = .ok v) :
    lastValue row (slots ++ [slot]) c
      = if c.field = slot.1.column.field then v else lastValue row slots c := by
  unfold lastValue
  by_cases hc : c.field = slot.1.column.field
  · simp [hc, hv]
  · have hne : (slot.1.column.field == c.field) = false := by simpa using Ne.symm hc
    simp [hc, hne]

/-- A value that a column takes is what the column then holds. -/
theorem write_loaded {m : Mapping} (hm : m.Consistent) {done : List (StructureColumn × Nat)}
    {slot : StructureColumn × Nat} (hslot : slot.1.column ∈ m.columns) {v : Value}
    (hv : slotValue row slot = .ok v) :
    m.write slot.1.column (loaded m row done) (row.getD slot.2 .null)
      = .ok (loaded m row (done ++ [slot])) := by
  have hput := Entries.put_map Column.field (lastValue row done)
    (List.mem_map_of_mem (f := Column.field) hslot) hm.fields v
  have hwrite : m.write slot.1.column (loaded m row done) (row.getD slot.2 .null)
      = .ok ((loaded m row done).setValue slot.1.column.field v) := by
    unfold slotValue at hv
    simp only [Mapping.write, hv, Record.asModel, loaded, Mapping.blank, if_true]
  rw [hwrite, Record.setValue]
  simp only [loaded, hput, lastValue_append_singleton _ _ _ hv]

/-- Writing the slots of a row, each to its column: the first value that a
column does not take is the fault, and without one every column holds the
value of its last slot. -/
theorem foldlM_write {m : Mapping} (hm : m.Consistent) {rest : List (StructureColumn × Nat)} :
    ∀ done : List (StructureColumn × Nat), (∀ slot ∈ rest, slot.1.column ∈ m.columns) →
      rest.foldlM
          (fun record slot => m.write slot.1.column record (row.getD slot.2 .null))
          (loaded m row done)
        = match rest.findSome? (slotFault row) with
          | some f => .error f
          | none => .ok (loaded m row (done ++ rest)) := by
  induction rest with
  | nil =>
      intro done _
      rw [List.append_nil]
      rfl
  | cons slot rest ih =>
      intro done hmem
      obtain ⟨hslot, hmem⟩ := List.forall_mem_cons.1 hmem
      rw [List.foldlM_cons, List.findSome?_cons, slotFault]
      cases hv : slotValue row slot with
      | error e =>
          unfold slotValue at hv
          have hwrite : m.write slot.1.column (loaded m row done) (row.getD slot.2 .null)
              = .error (.conversion e) := by simp only [Mapping.write, hv]
          rw [hwrite]
          rfl
      | ok v =>
          rw [write_loaded hm hslot hv]
          have hrest := ih (done ++ [slot]) hmem
          rw [List.append_assoc, List.singleton_append] at hrest
          exact hrest

/-- Loading the record of a built structure from a row that is wide
enough. -/
theorem Built.load_eq (h : s.Built catalog) (hm : s.mapping.Consistent)
    (hrow : ∀ slot ∈ s.slots, slot.2 < row.length) :
    s.load row = match faultIn row s with
      | some f => .error f
      | none => .ok (s.recordIn row) := by
  rw [load_eq_slots hrow]
  exact foldlM_write hm [] h.column_mem

end Structure

end RecordQuery
