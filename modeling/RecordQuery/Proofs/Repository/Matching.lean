/-
What matching by the texts of keys tells apart. A target is brought up to
date from the record that stands under the text of its key, and a row is
taken up by the node that stands under the text of the key it carries. The
text tells the key but for numbers that JSON has no form for, so nothing is
matched that differs in anything else.

What differs in such a number alone is matched. A key of positive infinity
and one of negative infinity have one text, and of the records of the two
only the first is kept.
-/
import RecordQuery.Proofs.Loading.Read
import RecordQuery.Proofs.Value.Identity
import RecordQuery.Repository.Reconcile

namespace RecordQuery

open Value (WrittenAlike keyText keyText_eq_iff)

-- =============================================================== targets

namespace Mapping

variable {m : Mapping} {records : List Record} {loaded : List (String × Record)} {text : String}
  {record : Record}

/-- Each record stands under the text of its own key. -/
theorem of_mem_index : ∀ {loaded : List (String × Record)}, m.index records = .ok loaded →
    (text, record) ∈ loaded →
      record ∈ records ∧ ∃ own, m.keyOf record = .ok own ∧ text = keyText own := by
  induction records with
  | nil =>
      intro loaded h hmem
      cases h
      cases hmem
  | cons first rest ih =>
      intro loaded h hmem
      rw [index] at h
      obtain ⟨own, hown, h⟩ := bind_eq_ok.1 h
      obtain ⟨others, hothers, h⟩ := bind_eq_ok.1 h
      cases pure_eq_ok.1 h
      rw [List.mem_cons] at hmem
      obtain heq | hmem := hmem
      · cases heq
        exact ⟨List.mem_cons_self, own, hown, rfl⟩
      · obtain ⟨hrecord, hkey⟩ := ih hothers (List.mem_of_mem_filter hmem)
        exact ⟨List.mem_cons_of_mem _ hrecord, hkey⟩

/-- The record that is found by a key has a key like it. -/
theorem alike_of_index {key : List Value} (h : m.index records = .ok loaded)
    (hlookup : loaded.lookup (keyText key) = some record) :
    record ∈ records ∧ ∃ own, m.keyOf record = .ok own ∧ List.Forall₂ WrittenAlike own key := by
  obtain ⟨before, after, rfl, -⟩ := List.lookup_eq_some_iff.1 hlookup
  have hmem : (keyText key, record) ∈ before ++ (keyText key, record) :: after :=
    List.mem_append_right _ List.mem_cons_self
  obtain ⟨hrecord, own, hown, htext⟩ := of_mem_index h hmem
  exact ⟨hrecord, own, hown, keyText_eq_iff.1 htext.symm⟩

end Mapping

-- ================================================================== rows

namespace Structure

variable {s : Structure} {kind : RelationKind} {rows : List Row} {key : String} {row other : Row}

theorem mem_rowsOf_iff :
    row ∈ s.rowsOf key rows ↔ row ∈ rows ∧ s.missing row = false ∧ s.keyIn row = key := by
  unfold rowsOf
  rw [List.mem_filter, Bool.and_eq_true, Bool.not_eq_true', beq_iff_eq]

/-- The rows of one related record are those whose keys are alike. -/
theorem mem_rowsOf_iff_alike (hrow : row ∈ s.rowsOf key rows) (hother : other ∈ rows)
    (hcarries : s.missing other = false) :
    other ∈ s.rowsOf key rows ↔ List.Forall₂ WrittenAlike (s.keyOf row) (s.keyOf other) := by
  obtain ⟨-, -, hkey⟩ := mem_rowsOf_iff.1 hrow
  rw [mem_rowsOf_iff, ← keyText_eq_iff, ← hkey]
  constructor
  · intro h
    exact h.2.2.symm
  · intro h
    exact ⟨hother, hcarries, h.symm⟩

/-- How rows are parted among nodes by the keys they carry. -/
structure Parted (s : Structure) (kind : RelationKind) (rows : List Row)
    (group : List (String × Node)) : Prop where
  /-- Each node is that of the rows of its key. -/
  node : ∀ entry ∈ group, entry.2 = s.nodeOf (s.rowsOf entry.1 rows)
  carried : ∀ entry ∈ group, s.rowsOf entry.1 rows ≠ []
  /-- These are all rows whose keys are like that of any of them. -/
  alike : ∀ entry ∈ group, ∀ row ∈ s.rowsOf entry.1 rows, ∀ other ∈ rows,
    s.missing other = false →
      (other ∈ s.rowsOf entry.1 rows
        ↔ List.Forall₂ WrittenAlike (s.keyOf row) (s.keyOf other))
  /-- No key has two nodes. -/
  once : (group.map Prod.fst).Nodup
  /-- A to-many relation has a node for each row that carries a key. -/
  taken : kind = .many → ∀ row ∈ rows, s.missing row = false →
    ∃ entry ∈ group, row ∈ s.rowsOf entry.1 rows

theorem parted_nodesFor (s : Structure) (kind : RelationKind) (rows : List Row) :
    s.Parted kind rows (s.nodesFor kind rows) where
  node := by
    intro entry hentry
    obtain ⟨key, -, rfl⟩ := List.mem_map.1 hentry
    rfl
  carried := by
    intro entry hentry
    obtain ⟨key, hkey, rfl⟩ := List.mem_map.1 hentry
    exact rowsOf_ne_nil (carried_of_mem_keysOf hkey)
  alike entry _ row hrow other hother hcarries := mem_rowsOf_iff_alike hrow hother hcarries
  once := by
    unfold nodesFor
    rw [List.map_map]
    simpa [Function.comp_def] using nodup_keysOf
  taken := by
    rintro rfl row hrow hcarries
    have hkey : s.keyIn row ∈ s.keysOf .many rows :=
      List.mem_eraseDups.2 (List.mem_map_of_mem (List.mem_filter.2 ⟨hrow, by simp [hcarries]⟩))
    exact ⟨_, List.mem_map_of_mem hkey, mem_rowsOf_iff.2 ⟨hrow, hcarries, rfl⟩⟩

/-- Below the node of rows these are parted among the nodes of each
relation. -/
theorem parted_nodeOf (s : Structure) (rows : List Row) :
    List.Forall₂ (fun e group => e.2.Parted e.1.kind rows group) s.relations
      (s.nodeOf rows).children := by
  rw [nodeOf_eq, nodesBelow_eq_map, List.forall₂_map_right_iff, List.forall₂_same]
  intro e _
  exact e.2.parted_nodesFor e.1.kind rows

/-- So they are when they are taken up one after the other. -/
theorem Built.parted_of_takeUp {catalog : Catalog} (h : s.Built catalog)
    (hm : s.mapping.Consistent) {first : Row} {rest : List Row} {node : Node}
    (hwide : ∀ row ∈ first :: rest, s.offset + s.width ≤ row.length)
    (htaken : s.takeUp first rest = .ok node) :
    List.Forall₂ (fun e group => e.2.Parted e.1.kind (first :: rest) group) s.relations
      node.children := by
  rw [h.of_takeUp hm hwide htaken]
  exact s.parted_nodeOf (first :: rest)

end Structure

-- ======================================================= the statement

/-- Matching tells apart all keys that are not alike. The texts of two keys
are the same exactly if the keys have one length and are, position by
position, the same value or both a number that JSON has no form for; so a
key without such a number shares its text with no other key. The record
found for a target has a key like the target's. Rows that are taken up one
after the other are parted among the nodes below their record, each of
which is that of all rows whose keys are like one another; and so they are
below those nodes. -/
theorem Value.keyText_tells_keys (xs ys : List Value) (m : Mapping) (records : List Record)
    (s : Structure) (kind : RelationKind) (rows : List Row) :
    (keyText xs = keyText ys ↔ List.Forall₂ WrittenAlike xs ys)
      ∧ ((∀ x ∈ xs, x.isUnwritten = false) → (keyText xs = keyText ys ↔ xs = ys))
      ∧ (∀ loaded key record, m.index records = .ok loaded →
          loaded.lookup (keyText key) = some record →
          record ∈ records
            ∧ ∃ own, m.keyOf record = .ok own ∧ List.Forall₂ WrittenAlike own key)
      ∧ (∀ catalog first rest node, s.Built catalog → s.mapping.Consistent →
          (∀ row ∈ first :: rest, s.offset + s.width ≤ row.length) →
          s.takeUp first rest = .ok node →
          List.Forall₂ (fun e group => e.2.Parted e.1.kind (first :: rest) group) s.relations
            node.children)
      ∧ s.Parted kind rows (s.nodesFor kind rows)
      ∧ List.Forall₂ (fun e group => e.2.Parted e.1.kind rows group) s.relations
          (s.nodeOf rows).children := by
  refine ⟨keyText_eq_iff, keyText_eq_iff_eq, fun loaded key record => Mapping.alike_of_index,
    fun catalog first rest node h hm => h.parted_of_takeUp hm, s.parted_nodesFor kind rows,
    s.parted_nodeOf rows⟩

/-- A tenth and the next number have two texts. Of three rows of a member, two
of which carry one key, two members are below. -/
theorem Value.keyText_tells_tenth_from_next :
    keyText [.int64 1, .float ⟨0x3FB999999999999A⟩]
        ≠ keyText [.int64 1, .float ⟨0x3FB999999999999B⟩]
      ∧ ∃ plan first rest node,
        Plan.build memberCatalog Flavor.postgresql.dialect memberMapping sponsoredInclude "m" 0
            none = .ok plan
          ∧ sponsoredRows.take 3 = first :: rest
          ∧ plan.layout.takeUp first rest = .ok node
          ∧ node.children.map List.length = [2]
          ∧ List.Forall₂ (fun e group => e.2.Parted e.1.kind (first :: rest) group)
            plan.layout.relations node.children := by
  obtain ⟨plan, first, rest, node, hbuild, hrows, hwide, htaken, hnodes⟩ :
      ∃ plan first rest node,
        Plan.build memberCatalog Flavor.postgresql.dialect memberMapping sponsoredInclude "m" 0
            none = .ok plan
          ∧ sponsoredRows.take 3 = first :: rest
          ∧ (∀ row ∈ first :: rest, plan.layout.offset + plan.layout.width ≤ row.length)
          ∧ plan.layout.takeUp first rest = .ok node
          ∧ node.children.map List.length = [2] :=
    ⟨_, _, _, _, rfl, rfl, by decide, rfl, by decide +kernel⟩
  obtain ⟨hbuilt, hmapping, -⟩ := Plan.layout_built hbuild
  have hmem : memberMapping ∈ memberCatalog.mappings := List.mem_singleton_self _
  have hconsistent : plan.layout.mapping.Consistent := hmapping ▸ Catalog.consistent hmem
  obtain ⟨-, hwritten, -, hparted, -⟩ := Value.keyText_tells_keys
    [.int64 1, .float ⟨0x3FB999999999999A⟩] [.int64 1, .float ⟨0x3FB999999999999B⟩]
    memberMapping [] plan.layout .many []
  refine ⟨fun htext => absurd ((hwritten (by decide)).1 htext) (by decide),
    plan, first, rest, node, hbuild, hrows, htaken, hnodes, ?_⟩
  exact hparted memberCatalog first rest node hbuilt hconsistent hwide htaken

/-- The two infinities are different keys of one text. -/
theorem Value.keyText_of_infinities :
    keyText [.float ⟨0x7FF0000000000000⟩] = keyText [.float ⟨0xFFF0000000000000⟩]
      ∧ [Value.float ⟨0x7FF0000000000000⟩] ≠ [Value.float ⟨0xFFF0000000000000⟩] := by
  refine ⟨?_, by decide⟩
  rw [keyText_eq_iff, List.forall₂_cons]
  exact ⟨Or.inr ⟨rfl, rfl⟩, .nil⟩

end RecordQuery
