/-
The slice of a row that a structure fills, with what is below it. Whatever
grouping asks of rows for a structure, it asks of their slices; and a
slice for a relation is cut from the slice of the structure above.

Cut for one relation, a product of rows repeats the blocks of that
relation: whole, if relations before it change, each block for itself, if
relations behind it do. Either way the blocks appear first in their own
order, which is all that grouping looks at.
-/
import RecordQuery.Proofs.Loading.Expansion

namespace RecordQuery

namespace Structure

variable {catalog : Catalog} {s : Structure} {rows : List Row} {row : Row} {t : Record}

/-- The part of a row that a structure and everything below it fill. -/
def slice (s : Structure) (row : Row) : Row :=
  (row.drop s.offset).take s.width

-- ========================================================= keys of slices

/-- The key values of a slice. -/
def keyOfSlice (s : Structure) (block : Row) : List Value :=
  block.take s.keys.length

/-- The text of the key of a slice. -/
def keyTextOfSlice (s : Structure) (block : Row) : String :=
  Value.keyText (s.keyOfSlice block)

/-- Whether a slice has a record. -/
def presentIn (s : Structure) (block : Row) : Bool :=
  !(s.keyOfSlice block).all Value.isNull

/-- Whether a slice has the record of a key. -/
def carries (s : Structure) (key : String) (block : Row) : Bool :=
  s.presentIn block && s.keyTextOfSlice block == key

theorem keyOfSlice_slice (s : Structure) (row : Row) :
    s.keyOfSlice (s.slice row) = s.keyOf row := by
  have hle : s.keys.length ≤ s.width := by
    rw [width_eq, ownWidth]
    omega
  unfold keyOfSlice slice
  rw [List.take_take, Nat.min_eq_left hle, keyOf]

theorem presentIn_slice (s : Structure) (row : Row) :
    s.presentIn (s.slice row) = !s.missing row := by
  unfold presentIn
  rw [keyOfSlice_slice, missing]

/-- The keys that rows carry are those of their slices. -/
theorem carried_eq_slices (s : Structure) (rows : List Row) :
    s.carried rows = ((rows.map s.slice).filter s.presentIn).map s.keyTextOfSlice := by
  rw [List.filter_map, List.map_map, carried]
  have hpresent : s.presentIn ∘ s.slice = fun row => !s.missing row := by
    funext row
    exact s.presentIn_slice row
  rw [hpresent]
  refine List.map_congr_left fun row _ => ?_
  rw [Function.comp_apply, keyTextOfSlice, keyOfSlice_slice]

/-- The slices of the rows that carry a key. -/
theorem map_slice_rowsOf (s : Structure) (key : String) (rows : List Row) :
    (s.rowsOf key rows).map s.slice = (rows.map s.slice).filter (s.carries key) := by
  rw [List.filter_map, rowsOf]
  congr 2
  funext row
  rw [Function.comp_apply, carries, presentIn_slice, keyTextOfSlice, keyOfSlice_slice]

-- ============================================================== positions

theorem PlacedFrom.bounds {relations : List (Relation × Structure)} :
    ∀ {start : Nat}, PlacedFrom start relations → ∀ e ∈ relations,
      start ≤ e.2.offset ∧ e.2.offset + e.2.width ≤ start + widths relations := by
  induction relations with
  | nil =>
      intro start _ e he
      exact absurd he List.not_mem_nil
  | cons head rest ih =>
      intro start hplaced e he
      obtain ⟨relation, s⟩ := head
      obtain ⟨hoffset, hrest⟩ := hplaced
      rw [widths]
      rcases List.mem_cons.1 he with rfl | he
      · dsimp only
        omega
      · have hbounds := ih hrest e he
        omega

/-- What a slice holds for a structure below. -/
def cut (s below : Structure) (block : Row) : Row :=
  ((block.drop s.ownWidth).drop (below.offset - s.fieldEnd)).take below.width

theorem cut_slice (hplaced : PlacedFrom s.fieldEnd s.relations) {e : Relation × Structure}
    (he : e ∈ s.relations) (row : Row) : s.cut e.2 (s.slice row) = e.2.slice row := by
  obtain ⟨hstart, hend⟩ := hplaced.bounds e he
  have hfield := s.fieldEnd_eq
  have hwidth := s.width_eq
  unfold cut slice
  rw [List.drop_drop, List.drop_take, List.drop_drop, List.take_take]
  congr 2
  · omega
  · omega

-- ================================================================ product

section Product

variable {blocks more : List Row} {width : Nat}

/-- The front of a product repeats each block in place. -/
theorem sameFirsts_front (hlength : ∀ block ∈ blocks, block.length = width) (hmore : more ≠ []) :
    SameFirsts ((product blocks more).map fun row => row.take width) blocks := by
  have hcopies : SameFirsts ((product blocks more).map fun row => row.take width)
      (blocks.map id) := by
    unfold product
    rw [List.map_flatMap]
    refine SameFirsts.flatMap_copies fun block hblock => ⟨?_, fun front hfront => ?_⟩
    · exact fun hnil => hmore (List.map_eq_nil_iff.1 (List.map_eq_nil_iff.1 hnil))
    · rw [List.map_map] at hfront
      obtain ⟨row, -, rfl⟩ := List.mem_map.1 hfront
      exact List.take_left' (hlength block hblock)
  rwa [List.map_id] at hcopies

/-- What is behind the front of a product is repeated as a whole. -/
theorem sameFirsts_behind (hlength : ∀ block ∈ blocks, block.length = width)
    (hblocks : blocks ≠ []) (f : Row → Row) :
    SameFirsts ((product blocks more).map fun row => f (row.drop width)) (more.map f) := by
  have hdrop : ∀ block ∈ blocks, (more.map fun row => block ++ row).map
      (fun row => f (row.drop width)) = more.map f := by
    intro block hblock
    rw [List.map_map]
    refine List.map_congr_left fun row _ => ?_
    rw [Function.comp_apply, List.drop_left' (hlength block hblock)]
  unfold product
  rw [List.map_flatMap, List.flatMap_congr hdrop]
  exact SameFirsts.flatMap_repeat hblocks _

end Product

/-- Cut for one relation, the product has the blocks of that relation. -/
theorem sameFirsts_expandEach {relations : List (Relation × Structure)} (t : Record) :
    ∀ {start : Nat}, PlacedFrom start relations → ∀ e ∈ relations,
      SameFirsts
        ((expandEach relations t).map fun below =>
          (below.drop (e.2.offset - start)).take e.2.width)
        (e.2.blocks (t.relatedTo e.1.field)) := by
  induction relations with
  | nil =>
      intro start _ e he
      exact absurd he List.not_mem_nil
  | cons head rest ih =>
      intro start hplaced e he
      obtain ⟨relation, s⟩ := head
      obtain ⟨hoffset, hplaced⟩ := hplaced
      have hlength : ∀ block ∈ s.blocks (t.relatedTo relation.field), block.length = s.width :=
        fun block hblock => length_of_mem_blocks (length_of_mem_expand s) hblock
      rw [expandEach_cons]
      rcases List.mem_cons.1 he with rfl | he
      · simp only [hoffset, Nat.sub_self, List.drop_zero]
        exact sameFirsts_front hlength (expandEach_ne_nil rest t)
      · obtain ⟨hstart, -⟩ := hplaced.bounds e he
        have hskip : e.2.offset - start = s.width + (e.2.offset - (start + s.width)) := by omega
        simp only [hskip, ← List.drop_drop]
        exact (sameFirsts_behind hlength (blocks_ne_nil (expand_ne_nil s) _)
          fun below => (below.drop (e.2.offset - (start + s.width))).take e.2.width).trans
          (ih hplaced e he)

/-- Cut for one relation, the rows of a record have the blocks of that
relation. -/
theorem sameFirsts_cut (hplaced : PlacedFrom s.fieldEnd s.relations) (t : Record)
    {e : Relation × Structure} (he : e ∈ s.relations) :
    SameFirsts ((s.expand t).map (s.cut e.2)) (e.2.blocks (t.relatedTo e.1.field)) := by
  have hcut : (s.expand t).map (s.cut e.2) = (expandEach s.relations t).map fun below =>
      (below.drop (e.2.offset - s.fieldEnd)).take e.2.width := by
    rw [expand_eq, List.map_map]
    refine List.map_congr_left fun below _ => ?_
    rw [Function.comp_apply, cut, List.drop_left' (s.length_ownBlock t)]
  rw [hcut]
  exact sameFirsts_expandEach t hplaced e he

/-- Rows that have the slices of a record have the blocks of each of its
relations. -/
theorem sameFirsts_below (hplaced : PlacedFrom s.fieldEnd s.relations)
    (h : SameFirsts (rows.map s.slice) (s.expand t)) {e : Relation × Structure}
    (he : e ∈ s.relations) :
    SameFirsts (rows.map e.2.slice) (e.2.blocks (t.relatedTo e.1.field)) := by
  have hrows : rows.map e.2.slice = (rows.map s.slice).map (s.cut e.2) := by
    rw [List.map_map]
    exact List.map_congr_left fun row _ => (cut_slice hplaced he row).symm
  rw [hrows]
  exact (h.map _).trans (sameFirsts_cut hplaced t he)

/-- A row that has a slice of a record has a block of each of its
relations. -/
theorem slice_mem_blocks (hplaced : PlacedFrom s.fieldEnd s.relations)
    (h : s.slice row ∈ s.expand t) {e : Relation × Structure} (he : e ∈ s.relations) :
    e.2.slice row ∈ e.2.blocks (t.relatedTo e.1.field) := by
  rw [← (sameFirsts_cut hplaced t he).mem_iff, ← cut_slice hplaced he row]
  exact List.mem_map_of_mem h

end Structure

end RecordQuery
