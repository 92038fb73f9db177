/-
The keys that rows hold for a relation, and the rows that carry each, as
one row is added to the rows. A row without a record for the relation
changes nothing. A row with one is added to the rows of its key, and its
key is added to the keys unless it is among them or the relation is to-one
and has a record already.
-/
import RecordQuery.Proofs.Firsts
import RecordQuery.Proofs.Loading.Grouping

namespace RecordQuery

namespace Structure

variable {s : Structure} {kind : RelationKind} {rows : List Row} {row : Row} {key : String}

-- ============================================================= carrying

/-- The text of the key that a row carries for a structure. -/
abbrev keyIn (s : Structure) (row : Row) : String :=
  Value.keyText (s.keyOf row)

theorem carried_append_missing (h : s.missing row = true) :
    s.carried (rows ++ [row]) = s.carried rows := by
  simp [carried, h]

theorem carried_append (h : s.missing row = false) :
    s.carried (rows ++ [row]) = s.carried rows ++ [s.keyIn row] := by
  simp [carried, h]

theorem rowsOf_append_missing (h : s.missing row = true) :
    s.rowsOf key (rows ++ [row]) = s.rowsOf key rows := by
  simp [rowsOf, h]

theorem rowsOf_append_self (h : s.missing row = false) :
    s.rowsOf (s.keyIn row) (rows ++ [row]) = s.rowsOf (s.keyIn row) rows ++ [row] := by
  simp [rowsOf, h]

theorem rowsOf_append_other (h : key ≠ s.keyIn row) :
    s.rowsOf key (rows ++ [row]) = s.rowsOf key rows := by
  have hne : (Value.keyText (s.keyOf row) == key) = false := by simpa using Ne.symm h
  simp [rowsOf, hne]

/-- A key that no row carries has no rows. -/
theorem rowsOf_eq_nil (h : key ∉ s.carried rows) : s.rowsOf key rows = [] := by
  unfold rowsOf
  rw [List.filter_eq_nil_iff]
  intro row hrow hkey
  rw [Bool.and_eq_true, beq_iff_eq] at hkey
  exact h (List.mem_map.2 ⟨row, List.mem_filter.2 ⟨hrow, hkey.1⟩, hkey.2⟩)

/-- A key that a row carries has rows. -/
theorem rowsOf_ne_nil (h : key ∈ s.carried rows) : s.rowsOf key rows ≠ [] := by
  obtain ⟨row, hrow, rfl⟩ := List.mem_map.1 h
  obtain ⟨hrow, hcarry⟩ := List.mem_filter.1 hrow
  exact List.ne_nil_of_mem (List.mem_filter.2 ⟨hrow, by simp [hcarry]⟩)

-- ================================================================= keys

theorem carried_of_mem_keysOf (h : key ∈ s.keysOf kind rows) : key ∈ s.carried rows := by
  cases kind with
  | many => exact List.mem_eraseDups.1 h
  | one => exact List.mem_of_mem_take h

theorem nodup_keysOf : (s.keysOf kind rows).Nodup := by
  cases kind with
  | many => exact nodup_eraseDups _
  | one =>
      cases hc : s.carried rows <;> simp [keysOf, hc]

theorem keysOf_append_missing (h : s.missing row = true) :
    s.keysOf kind (rows ++ [row]) = s.keysOf kind rows := by
  simp only [keysOf, carried_append_missing h]

/-- A key that is held already is not added. -/
theorem keysOf_append_held (h : s.missing row = false)
    (hkey : s.keyIn row ∈ s.keysOf kind rows) :
    s.keysOf kind (rows ++ [row]) = s.keysOf kind rows := by
  cases kind with
  | many =>
      have hcarried := carried_of_mem_keysOf hkey
      simp only [keysOf, carried_append h]
      rw [List.eraseDups_append, List.removeAll]
      simp [hcarried]
  | one =>
      have hcarried := carried_of_mem_keysOf hkey
      simp only [keysOf, carried_append h]
      rw [List.take_append_of_le_length]
      exact List.length_pos_of_mem hcarried

/-- A to-one relation that holds a key takes no other. -/
theorem keysOf_append_refused (h : s.missing row = false) (hone : kind.isMany = false)
    (hheld : s.keysOf kind rows ≠ []) :
    s.keysOf kind (rows ++ [row]) = s.keysOf kind rows := by
  cases kind with
  | many => cases hone
  | one =>
      simp only [keysOf, carried_append h]
      cases hc : s.carried rows with
      | nil => simp [keysOf, hc] at hheld
      | cons key rest => rfl

/-- Any other key is added, and no row carried it before. -/
theorem keysOf_append_new (h : s.missing row = false)
    (hkey : s.keyIn row ∉ s.keysOf kind rows)
    (hfree : kind.isMany = true ∨ s.keysOf kind rows = []) :
    s.keysOf kind (rows ++ [row]) = s.keysOf kind rows ++ [s.keyIn row]
      ∧ s.keyIn row ∉ s.carried rows := by
  cases kind with
  | many =>
      have hcarried : s.keyIn row ∉ s.carried rows := fun hmem => hkey (List.mem_eraseDups.2 hmem)
      refine ⟨?_, hcarried⟩
      simp only [keysOf, carried_append h]
      rw [List.eraseDups_append, List.removeAll]
      simp [hcarried, List.eraseDups_cons]
  | one =>
      have hnone : s.carried rows = [] := by
        rcases hfree with hmany | hempty
        · cases hmany
        · cases hc : s.carried rows with
          | nil => rfl
          | cons key rest => simp [keysOf, hc] at hempty
      refine ⟨?_, by rw [hnone]; exact List.not_mem_nil⟩
      simp [keysOf, carried_append h, hnone]

end Structure

end RecordQuery
