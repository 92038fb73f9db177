/-
Records that are read hold values of their columns' types. A blank record
does; loading writes to a column what its type has taken; taking up more
rows leaves the record of a node as it is, and attaching what stands below
a record leaves its values as they are. So every record that a reading
keeps is of the mapping's model and typed, whatever the rows, the window
and the way the reading ends.
-/
import RecordQuery.Proofs.Loading.Expansion

namespace RecordQuery

namespace Mapping

variable {m : Mapping} {t t' child : Record} {c : Column} {v : Value}

/-- Columns of a consistent mapping are told apart by their fields. -/
theorem Consistent.column_ext (hm : m.Consistent) {c' : Column} (hc : c ∈ m.columns)
    (hc' : c' ∈ m.columns) (h : c.field = c'.field) : c = c' :=
  List.inj_on_of_nodup_map hm.fields hc hc' h

/-- What the getter of a column reads is what the record holds for the
column's field. -/
theorem read_eq (ht : t.model = m.model) (c : Column) :
    m.read c t = .ok ((t.value? c.field).getD (c.type.store c.type.blank)) := by
  unfold read Record.asModel
  rw [if_pos ht]
  rfl

theorem Typed.blank (hm : m.Consistent) : m.Typed m.blank where
  model := rfl
  stored c hc := by
    refine ⟨c.type.blank, ?_⟩
    have hvalue : m.blank.value? c.field = some (c.type.store c.type.blank) :=
      Entries.lookup_map Column.field _ hm.fields hc
    rw [read_eq rfl, hvalue]
    rfl

/-- A record keeps its type when a column's content is put in the column's
place. -/
theorem Typed.setValue (ht : m.Typed t) (hm : m.Consistent) (hc : c ∈ m.columns)
    (x : c.type.Carrier) : m.Typed (t.setValue c.field (c.type.store x)) where
  model := ht.model
  stored c' hc' := by
    by_cases h : c'.field = c.field
    · cases hm.column_ext hc' hc h
      refine ⟨x, ?_⟩
      rw [read_eq (by exact ht.model), Record.value?, Record.setValue, Entries.lookup_put]
      rfl
    · obtain ⟨y, hy⟩ := ht.stored c' hc'
      rw [read_eq ht.model] at hy
      refine ⟨y, ?_⟩
      rw [read_eq (by exact ht.model), Record.value?, Record.setValue, Entries.lookup_put_ne h]
      exact hy

theorem Typed.of_write (ht : m.Typed t) (hm : m.Consistent) (hc : c ∈ m.columns)
    (h : m.write c t v = .ok t') : m.Typed t' := by
  unfold write at h
  split at h
  · cases h
  · next stored hstored =>
    obtain ⟨x, -, rfl⟩ := map_eq_ok.1 hstored
    rw [Record.asModel, if_pos ht.model] at h
    cases h
    exact ht.setValue hm hc x

/-- What a record holds for its relations has no part in its type. -/
theorem Typed.setRelated (ht : m.Typed t) (field : String) (records : List Record) :
    m.Typed (t.setRelated field records) where
  model := ht.model
  stored c hc := by
    obtain ⟨x, hx⟩ := ht.stored c hc
    rw [read_eq ht.model] at hx
    exact ⟨x, by rw [read_eq (by exact ht.model)]; exact hx⟩

theorem Typed.of_attach {relation : Relation} (ht : m.Typed t)
    (h : m.attach relation t child = .ok t') : m.Typed t' := by
  have hself : t.asModel m.model = .ok t := if_pos ht.model
  unfold attach at h
  rw [hself] at h
  split at h
  · obtain ⟨_, -, h⟩ := bind_eq_ok.1 h
    obtain ⟨_, hparent, h⟩ := bind_eq_ok.1 h
    cases hparent
    cases pure_eq_ok.1 h
    exact ht.setRelated _ _
  · obtain ⟨_, hparent, h⟩ := bind_eq_ok.1 h
    cases hparent
    obtain ⟨_, -, h⟩ := bind_eq_ok.1 h
    cases pure_eq_ok.1 h
    exact ht.setRelated _ _

end Mapping

namespace Structure

variable {catalog : Catalog} {s : Structure} {row left : Row} {node node' : Node}
  {t : Record} {window : Window}

-- ================================================================ nodes

/-- Loading a record from a row gives a typed one, if it succeeds. -/
theorem Built.typed_of_load (h : s.Built catalog) (hm : s.mapping.Consistent)
    (hload : s.load row = .ok t) : s.mapping.Typed t := by
  have hcolumn : ∀ c ∈ s.keys ++ s.fields, c.column ∈ s.mapping.columns := by
    intro c hc
    rw [← s.map_fst_slots] at hc
    obtain ⟨slot, hslot, rfl⟩ := List.mem_map.1 hc
    exact h.column_mem slot hslot
  refine foldlM_ok_keeps (P := s.mapping.Typed) ?_ (.blank hm) hload
  rintro ⟨c, v⟩ hmem b b' hb hwrite
  refine hb.of_write hm (hcolumn c ?_) hwrite
  rcases List.mem_append.1 hmem with hmem | hmem
  · exact List.mem_append_left _ (List.of_mem_zip hmem).1
  · exact List.mem_append_right _ (List.of_mem_zip hmem).1

theorem Built.typed_of_start (h : s.Built catalog) (hm : s.mapping.Consistent)
    (hstart : s.start row = .ok (node, left)) : s.mapping.Typed node.record := by
  obtain ⟨t, hload, heq⟩ := map_eq_ok.1 hstart
  cases heq
  exact h.typed_of_load hm hload

/-- Taking up a row leaves the record of a node as it is. -/
theorem record_of_absorb (h : s.absorb node row = .ok (node', left)) :
    node'.record = node.record := by
  rw [absorb_eq] at h
  obtain ⟨_, -, heq⟩ := map_eq_ok.1 h
  cases heq
  rfl

theorem typed_of_finishEach {m : Mapping} {relations : List (Relation × Structure)} :
    ∀ {groups : List (List (String × Node))} {record : Record}, m.Typed record →
      finishEach m relations groups record = .ok t → m.Typed t := by
  induction relations with
  | nil =>
      intro groups record hrecord h
      rw [finishEach] at h
      · cases pure_eq_ok.1 h
        exact hrecord
      · intros
        contradiction
  | cons e rest ih =>
      obtain ⟨relation, s⟩ := e
      intro groups record hrecord h
      cases groups with
      | nil =>
          rw [finishEach] at h
          · cases pure_eq_ok.1 h
            exact hrecord
          · intros
            contradiction
      | cons group groups =>
          rw [finishEach] at h
          obtain ⟨attached, hattached, h⟩ := bind_eq_ok.1 h
          refine ih (foldlM_ok_keeps (P := m.Typed) ?_ hrecord hattached) h
          rintro ⟨key, node⟩ - b b' hb hstep
          obtain ⟨child, -, hstep⟩ := bind_eq_ok.1 hstep
          split at hstep
          · next attached hattach =>
            cases pure_eq_ok.1 hstep
            exact hb.of_attach hattach
          · exact absurd hstep throw_ne_ok

/-- Attaching what stands below a node leaves its values as they are. -/
theorem typed_of_finish (ht : s.mapping.Typed node.record) (h : s.finish node = .ok t) :
    s.mapping.Typed t := by
  cases s
  exact typed_of_finishEach ht h

-- ============================================================== reading

/-- The records kept so far are typed, and so is the one at hand. -/
structure Progress.Typed (s : Structure) (p : Progress) : Prop where
  records : ∀ t ∈ p.records, s.mapping.Typed t
  current : ∀ key node, p.current = some (key, some node) → s.mapping.Typed node.record

theorem Progress.Typed.finish {p : Progress} (hp : p.Typed s) {records : List Record}
    (h : p.finish s = .ok records) : ∀ t ∈ records, s.mapping.Typed t := by
  unfold Progress.finish at h
  split at h
  · next key node hcurrent =>
    obtain ⟨t, ht, rfl⟩ := map_eq_ok.1 h
    intro t' ht'
    rcases List.mem_append.1 ht' with ht' | ht'
    · exact hp.records t' ht'
    · cases List.mem_singleton.1 ht'
      exact typed_of_finish (hp.current key node hcurrent) ht
  · cases h
    exact hp.records

theorem Progress.Typed.absorb {p p' : Progress} (hp : p.Typed s)
    (h : p.absorb s row = .ok p') : p'.Typed s := by
  unfold Progress.absorb at h
  split at h
  · next key node hcurrent =>
    obtain ⟨⟨node', left⟩, habsorb, rfl⟩ := map_eq_ok.1 h
    refine ⟨hp.records, fun key' node'' heq => ?_⟩
    cases heq
    rw [record_of_absorb habsorb]
    exact hp.current key node hcurrent
  · cases h
    exact hp

theorem Built.typed_of_begin (hs : s.Built catalog) (hm : s.mapping.Consistent)
    {records : List Record} (hrecords : ∀ t ∈ records, s.mapping.Typed t) {begun : Nat}
    {p : Progress} (h : Progress.begin s window row records begun = .ok p) : p.Typed s := by
  unfold Progress.begin at h
  dsimp only at h
  split at h
  · cases h
    exact ⟨hrecords, fun key node heq => nomatch heq⟩
  · obtain ⟨⟨node, left⟩, hstart, h⟩ := bind_eq_ok.1 h
    refine Progress.Typed.absorb ⟨hrecords, fun key' node' heq => ?_⟩ h
    cases heq
    exact hs.typed_of_start hm hstart

theorem atRow_eq_ok {α : Type} {index : Nat} {x : Except Fault α} {a : α}
    (h : atRow index x = .ok a) : x = .ok a := by
  cases x with
  | ok b =>
      cases h
      rfl
  | error e => cases h

/-- Reading on from typed records gives typed records. -/
theorem Built.typed_of_readFrom (hs : s.Built catalog) (hm : s.mapping.Consistent)
    {failure : Option Error} {rows : List Row} :
    ∀ {index : Nat} {p : Progress} {records : List Record}, p.Typed s →
      s.readFrom window failure index p rows = .ok records →
      ∀ t ∈ records, s.mapping.Typed t := by
  induction rows with
  | nil =>
      intro index p records hp h
      unfold readFrom at h
      split at h
      · cases h
      · exact hp.finish h
  | cons row rest ih =>
      intro index p records hp h
      rw [readFrom] at h
      split at h
      · cases h
      · split at h
        · obtain ⟨kept, hkept, h⟩ := bind_eq_ok.1 h
          have hrecords := hp.finish hkept
          split at h
          · cases pure_eq_ok.1 h
            exact hrecords
          · obtain ⟨next, hnext, h⟩ := bind_eq_ok.1 h
            exact ih (hs.typed_of_begin hm hrecords (atRow_eq_ok hnext)) h
        · obtain ⟨next, hnext, h⟩ := bind_eq_ok.1 h
          exact ih (hp.absorb (atRow_eq_ok hnext)) h

/-- Whatever rows are delivered and however reading them is windowed, the
records read are typed. -/
theorem Built.typed_of_read (hs : s.Built catalog) (hm : s.mapping.Consistent)
    {delivered : Cursor.Delivered} {records : List Record}
    (h : s.read window delivered = .ok records) : ∀ t ∈ records, s.mapping.Typed t :=
  hs.typed_of_readFrom hm ⟨by simp, by simp⟩ h

end Structure

end RecordQuery
