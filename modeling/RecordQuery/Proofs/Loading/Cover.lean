/-
Grouping undoes expanding. The related records of one relation are told
apart by the texts of their keys, so of the blocks of a relation those that
carry the key of a child are the rows of that child; and the keys come up
in the order of the children. By induction, rows whose slices are those of
a record, whatever is repeated, stand for what the structure covers of it.

And nothing that the structure covers is lost: what it covers of a record
has the rows of the record.
-/
import RecordQuery.Proofs.Loading.Slices

namespace RecordQuery

namespace Structure

variable {catalog : Catalog} {s : Structure} {rows : List Row} {row block : Row} {t : Record}

theorem keyOfSlice_of_mem_expand (h : block ∈ s.expand t) : s.keyOfSlice block = s.keyFrom t := by
  rw [expand_eq] at h
  obtain ⟨below, -, rfl⟩ := List.mem_map.1 h
  exact s.take_ownBlock t below

/-- The text of the key of a record. -/
def keyTextFrom (s : Structure) (t : Record) : String :=
  Value.keyText (s.keyFrom t)

theorem keyTextOfSlice_of_mem_expand (h : block ∈ s.expand t) :
    s.keyTextOfSlice block = s.keyTextFrom t := by
  unfold keyTextOfSlice
  rw [keyOfSlice_of_mem_expand h, keyTextFrom]

-- ============================================================== siblings

/-- Related records of one relation: their keys are their own, are not null
throughout and hold no floating-point number. -/
structure Siblings (s : Structure) (children : List Record) : Prop where
  nodup : (children.map s.keyFrom).Nodup
  present : ∀ child ∈ children, (s.keyFrom child).all Value.isNull = false
  exact : ∀ child ∈ children, ∀ v ∈ s.keyFrom child, v.isFloat = false

section Siblings

variable {children : List Record} {child : Record}

theorem Fits.siblings (h : s.Fits t) {e : Relation × Structure} (he : e ∈ s.relations) :
    e.2.Siblings (t.relatedTo e.1.field) := by
  cases h with
  | mk typed exact one nodup present below =>
      exact ⟨nodup e he, present e he, fun child hchild => (below e he child hchild).exact⟩

theorem Siblings.keyFrom_inj (h : s.Siblings children) {other : Record}
    (hchild : child ∈ children) (hother : other ∈ children)
    (htext : s.keyTextFrom child = s.keyTextFrom other) : s.keyFrom child = s.keyFrom other :=
  Value.keyText_inj (h.exact child hchild) (h.exact other hother) htext

theorem Siblings.nodup_keyTextFrom (h : s.Siblings children) :
    (children.map s.keyTextFrom).Nodup := by
  have htexts : children.map s.keyTextFrom = (children.map s.keyFrom).map Value.keyText := by
    rw [List.map_map]
    rfl
  rw [htexts]
  refine List.Nodup.map_on ?_ h.nodup
  intro key hkey other hother htext
  obtain ⟨child, hchild, rfl⟩ := List.mem_map.1 hkey
  obtain ⟨child', hchild', rfl⟩ := List.mem_map.1 hother
  exact h.keyFrom_inj hchild hchild' htext

theorem Siblings.presentIn_expand (h : s.Siblings children) (hchild : child ∈ children)
    (hblock : block ∈ s.expand child) : s.presentIn block = true := by
  unfold presentIn
  rw [keyOfSlice_of_mem_expand hblock, h.present child hchild]
  rfl

theorem presentIn_null (s : Structure) : s.presentIn (List.replicate s.width .null) = false := by
  unfold presentIn keyOfSlice
  rw [List.take_replicate, Bool.not_eq_false', List.all_eq_true]
  intro v hv
  rw [(List.mem_replicate.1 hv).2]
  rfl

/-- The keys of blocks come up in the order of the children. -/
theorem Siblings.sameFirsts_keys (h : s.Siblings children) :
    SameFirsts (((s.blocks children).filter s.presentIn).map s.keyTextOfSlice)
      (children.map s.keyTextFrom) := by
  by_cases hchildren : children = []
  · subst hchildren
    rw [blocks_nil, List.filter_cons_of_neg]
    · exact rfl
    · rw [presentIn_null]
      exact Bool.false_ne_true
  · have hall : (s.blocks children).filter s.presentIn = children.flatMap s.expand := by
      rw [blocks_of_ne_nil s hchildren, List.filter_eq_self]
      intro block hblock
      obtain ⟨child, hchild, hblock⟩ := List.mem_flatMap.1 hblock
      exact h.presentIn_expand hchild hblock
    rw [hall, List.map_flatMap]
    refine SameFirsts.flatMap_copies fun child hchild => ⟨?_, fun text htext => ?_⟩
    · exact fun hnil => expand_ne_nil s child (List.map_eq_nil_iff.1 hnil)
    · obtain ⟨block, hblock, rfl⟩ := List.mem_map.1 htext
      exact keyTextOfSlice_of_mem_expand hblock

/-- The blocks that carry the key of a child are its rows. -/
theorem Siblings.filter_blocks (h : s.Siblings children) (hchild : child ∈ children) :
    (s.blocks children).filter (s.carries (s.keyTextFrom child)) = s.expand child := by
  obtain ⟨before, behind, rfl⟩ := List.append_of_mem hchild
  have hnodup := h.nodup_keyTextFrom
  rw [List.map_append, List.map_cons, List.nodup_middle, List.nodup_cons, List.mem_append,
    not_or] at hnodup
  obtain ⟨⟨hbefore, hbehind⟩, -⟩ := hnodup
  have hother : ∀ other : Record, s.keyTextFrom other ≠ s.keyTextFrom child →
      (s.expand other).filter (s.carries (s.keyTextFrom child)) = [] := by
    intro other hne
    rw [List.filter_eq_nil_iff]
    intro block hblock hkey
    unfold carries at hkey
    rw [Bool.and_eq_true, beq_iff_eq, keyTextOfSlice_of_mem_expand hblock] at hkey
    exact hne hkey.2
  have hself : (s.expand child).filter (s.carries (s.keyTextFrom child)) = s.expand child := by
    rw [List.filter_eq_self]
    intro block hblock
    unfold carries
    rw [h.presentIn_expand hchild hblock, keyTextOfSlice_of_mem_expand hblock, Bool.true_and,
      beq_iff_eq]
  rw [blocks_of_ne_nil s (List.ne_nil_of_mem hchild), List.filter_flatMap, List.flatMap_append,
    List.flatMap_cons, hself, List.flatMap_eq_nil_iff.2, List.flatMap_eq_nil_iff.2,
    List.nil_append, List.append_nil]
  · exact fun other hmem => hother other fun heq => hbehind (heq ▸ List.mem_map_of_mem hmem)
  · exact fun other hmem => hother other fun heq => hbefore (heq ▸ List.mem_map_of_mem hmem)

/-- Rows that have the blocks of children hold their keys. -/
theorem Siblings.keysOf_eq (h : s.Siblings children)
    (hrows : SameFirsts (rows.map s.slice) (s.blocks children)) {kind : RelationKind}
    (hone : kind = .one → children.length ≤ 1) :
    s.keysOf kind rows = children.map s.keyTextFrom := by
  have hcarried : SameFirsts (s.carried rows) (children.map s.keyTextFrom) := by
    rw [carried_eq_slices]
    exact ((hrows.filter _).map _).trans h.sameFirsts_keys
  cases kind with
  | many => exact Eq.trans hcarried (eraseDups_of_nodup h.nodup_keyTextFrom)
  | one =>
      unfold keysOf
      rw [List.take_one, hcarried.head?, ← List.take_one, List.take_of_length_le]
      rw [List.length_map]
      exact hone rfl

/-- Rows that have the blocks of children have those of each child under its
key. -/
theorem Siblings.sameFirsts_rowsOf (h : s.Siblings children)
    (hrows : SameFirsts (rows.map s.slice) (s.blocks children)) (hchild : child ∈ children) :
    SameFirsts ((s.rowsOf (s.keyTextFrom child) rows).map s.slice) (s.expand child) := by
  rw [map_slice_rowsOf, ← h.filter_blocks hchild]
  exact hrows.filter _

end Siblings

-- ============================================================ own values

/-- A row that has a slice of a record has the record's values in the
slots of the structure. -/
theorem getD_slot (h : s.slice row ∈ s.expand t) {slot : StructureColumn × Nat}
    (hslot : slot ∈ s.slots) :
    row.getD slot.2 .null = s.mapping.valueOf t slot.1.column := by
  rw [slots_eq_zipIdx, List.mem_zipIdx_iff_le_and_getElem?_sub] at hslot
  obtain ⟨hle, hcolumn⟩ := hslot
  obtain ⟨hlt, -⟩ := List.getElem?_eq_some_iff.1 hcolumn
  have hown : slot.2 - s.offset < (s.ownBlock t).length := by
    rwa [ownBlock, List.length_map]
  have hwithin : slot.2 - s.offset < s.width := by
    rw [length_ownBlock] at hown
    rw [width_eq]
    omega
  rw [expand_eq] at h
  obtain ⟨below, -, hslice⟩ := List.mem_map.1 h
  have hvalue : (s.slice row)[slot.2 - s.offset]? = some (s.mapping.valueOf t slot.1.column) := by
    rw [← hslice, List.getElem?_append_left hown, ownBlock, List.getElem?_map, hcolumn]
    rfl
  unfold slice at hvalue
  rw [List.getElem?_take_of_lt hwithin, List.getElem?_drop, Nat.add_sub_cancel' hle] at hvalue
  rw [List.getD_eq_getElem?_getD, hvalue, Option.getD_some]

/-- The columns take these values as they are. -/
theorem Built.slotValue_eq (h : s.Built catalog) (ht : s.mapping.Typed t)
    (hrow : s.slice row ∈ s.expand t) {slot : StructureColumn × Nat} (hslot : slot ∈ s.slots) :
    slotValue row slot = .ok (s.mapping.valueOf t slot.1.column) := by
  unfold slotValue
  rw [getD_slot hrow hslot]
  exact ht.normalize_valueOf (h.column_mem slot hslot)

theorem Built.faultIn_eq_none (h : s.Built catalog) (ht : s.mapping.Typed t)
    (hrow : s.slice row ∈ s.expand t) : faultIn row s = none := by
  unfold faultIn
  rw [List.findSome?_eq_none_iff]
  intro slot hslot
  unfold slotFault
  rw [h.slotValue_eq ht hrow hslot]

/-- A column holds what the structure tells of it. -/
theorem Built.lastValue_eq (h : s.Built catalog) (hm : s.mapping.Consistent)
    (ht : s.mapping.Typed t) (hrow : s.slice row ∈ s.expand t) {c : Column}
    (hc : c ∈ s.mapping.columns) : lastValue row s.slots c = s.told t c := by
  have hfields : (s.keys ++ s.fields).map (fun slot => slot.column.field)
      = s.slots.map fun slot => slot.1.column.field := by
    rw [← map_fst_slots, List.map_map]
    rfl
  unfold told
  rw [hfields, lastValue]
  split
  · next slot hlast =>
    obtain ⟨hslot, hfield⟩ := List.mem_filter.1 (List.mem_of_getLast? hlast)
    rw [beq_iff_eq] at hfield
    have hcolumn : slot.1.column = c :=
      List.inj_on_of_nodup_map hm.fields (h.column_mem slot hslot) hc hfield
    rw [if_pos (List.mem_map.2 ⟨slot, hslot, hfield⟩), h.slotValue_eq ht hrow hslot, hcolumn]
  · next hlast =>
    rw [List.getLast?_eq_none_iff, List.filter_eq_nil_iff] at hlast
    rw [if_neg]
    intro hmem
    obtain ⟨slot, hslot, hfield⟩ := List.mem_map.1 hmem
    exact hlast slot hslot (beq_iff_eq.2 hfield)

theorem Built.valuesIn_eq (h : s.Built catalog) (hm : s.mapping.Consistent)
    (ht : s.mapping.Typed t) (hrow : s.slice row ∈ s.expand t) :
    s.valuesIn row = s.mapping.columns.map fun c => (c.field, s.told t c) :=
  List.map_congr_left fun _ hc => by rw [h.lastValue_eq hm ht hrow hc]

-- ============================================================== grouping

theorem groupedBelow_eq {relations : List (Relation × Structure)}
    (h : ∀ e ∈ relations,
      (e.2.keysOf e.1.kind rows).map (fun key => e.2.grouped (e.2.rowsOf key rows))
        = (t.relatedTo e.1.field).map e.2.project) :
    groupedBelow relations rows = projectBelow relations t := by
  induction relations with
  | nil => rfl
  | cons e rest ih =>
      obtain ⟨relation, s⟩ := e
      obtain ⟨hhead, hrest⟩ := List.forall_mem_cons.1 h
      rw [groupedBelow, projectBelow, ih hrest]
      exact congrArg (fun records => (relation.field, records) :: projectBelow rest t) hhead

/-- Rows that have the slices of a record stand for what the structure
covers of it. -/
theorem Built.grouped_eq_project (h : s.Built catalog) :
    s.mapping.Consistent → ∀ {rows : List Row} {t : Record}, s.Fits t →
      SameFirsts (rows.map s.slice) (s.expand t) → s.grouped rows = s.project t := by
  induction h with
  | @mk s keys fields relation target placed below ih =>
      intro hm rows t ht hrows
      have hbuilt : s.Built catalog := .mk keys fields relation target placed below
      have hfirst : s.slice (rows.headD []) ∈ s.expand t := by
        rw [← hrows.mem_iff]
        apply List.mem_map_of_mem
        cases rows with
        | nil =>
            obtain ⟨block, hblock⟩ := List.exists_mem_of_ne_nil _ (s.expand_ne_nil t)
            exact absurd ((hrows.mem_iff block).2 hblock) List.not_mem_nil
        | cons row rest => exact List.mem_cons_self
      have hbelow : groupedBelow s.relations rows = projectBelow s.relations t := by
        refine groupedBelow_eq fun e he => ?_
        have hsiblings := ht.siblings he
        have hblocks := sameFirsts_below placed hrows he
        cases ht with
        | mk typed exact one nodup present fits =>
            rw [hsiblings.keysOf_eq hblocks (one e he), List.map_map]
            refine List.map_congr_left fun child hchild => ?_
            exact ih e he (Catalog.consistent_of_mapping? (target e he))
              (fits e he child hchild) (hsiblings.sameFirsts_rowsOf hblocks hchild)
      cases ht with
      | mk typed exact one nodup present fits =>
          rw [grouped_eq, project_eq, hbuilt.valuesIn_eq hm typed hfirst, hbelow]

-- ============================================================== covering

theorem projectBelow_eq_map (relations : List (Relation × Structure)) (t : Record) :
    projectBelow relations t = relations.map fun e =>
      (e.1.field, (t.relatedTo e.1.field).map e.2.project) := by
  induction relations with
  | nil => rfl
  | cons e rest ih =>
      obtain ⟨relation, s⟩ := e
      rw [projectBelow, ih]
      rfl

/-- A related field of what is covered holds what is covered of the
records in it. -/
theorem relatedTo_project (hm : s.mapping.Consistent) (hd : s.Distinct)
    {e : Relation × Structure} (he : e ∈ s.relations) (hr : e.1 ∈ s.mapping.relations) :
    (s.project t).relatedTo e.1.field = (t.relatedTo e.1.field).map e.2.project := by
  cases hd with
  | mk fields below =>
      rw [project_eq, Record.relatedTo_holding hm hr, projectBelow_eq_map]
      have hlookup := Entries.lookup_map (fun e : Relation × Structure => e.1.field)
        (fun e => (t.relatedTo e.1.field).map e.2.project) fields he
      rw [hlookup, Option.getD_some]

/-- A selected column of what is covered holds the value of the record. -/
theorem Built.ownBlock_project (h : s.Built catalog) (hm : s.mapping.Consistent) :
    s.ownBlock (s.project t) = s.ownBlock t := by
  refine List.map_congr_left fun slot hslot => ?_
  have hcolumn : slot.column ∈ s.mapping.columns := by
    rw [← map_fst_slots] at hslot
    obtain ⟨placed, hplaced, rfl⟩ := List.mem_map.1 hslot
    exact h.column_mem placed hplaced
  have hlookup := Entries.lookup_map Column.field (s.told t) hm.fields hcolumn
  have htold : s.told t slot.column = s.mapping.valueOf t slot.column :=
    if_pos (List.mem_map_of_mem hslot)
  rw [Mapping.valueOf, Mapping.read, project_eq, Record.asModel, Record.holding, if_pos rfl]
  show (List.lookup _ _).getD _ = _
  rw [hlookup, Option.getD_some, htold]

theorem expandEach_congr {relations : List (Relation × Structure)} {t u : Record}
    (h : ∀ e ∈ relations,
      e.2.blocks (t.relatedTo e.1.field) = e.2.blocks (u.relatedTo e.1.field)) :
    expandEach relations t = expandEach relations u := by
  induction relations with
  | nil => rfl
  | cons e rest ih =>
      obtain ⟨relation, s⟩ := e
      obtain ⟨hhead, hrest⟩ := List.forall_mem_cons.1 h
      rw [expandEach_cons, expandEach_cons, ih hrest, hhead]

/-- What a structure covers of a record has the rows of the record. -/
theorem Built.expand_project (h : s.Built catalog) :
    s.mapping.Consistent → s.Distinct → ∀ t, s.expand (s.project t) = s.expand t := by
  induction h with
  | @mk s keys fields relation target placed below ih =>
      intro hm hd t
      have hbuilt : s.Built catalog := .mk keys fields relation target placed below
      have hbelow : ∀ e ∈ s.relations,
          e.2.blocks ((s.project t).relatedTo e.1.field) = e.2.blocks (t.relatedTo e.1.field) := by
        intro e he
        have hchild : ∀ child, e.2.expand (e.2.project child) = e.2.expand child := by
          cases hd with
          | mk fields distinct =>
              exact ih e he (Catalog.consistent_of_mapping? (target e he))
                (distinct e he)
        rw [relatedTo_project hm hd he (List.mem_of_find?_eq_some (relation e he))]
        simp only [blocks, List.isEmpty_map, List.flatMap_map, hchild]
      rw [expand_eq, expand_eq, hbuilt.ownBlock_project hm, expandEach_congr hbelow]

end Structure

end RecordQuery
