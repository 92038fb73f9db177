/-
A window is a part of what is read without one. Reading within a window
stands where reading all rows stands, less the records that are skipped:
those are not kept, and one at hand has no node. So it fails nowhere else,
and what it has kept when it stops is the part of all records that is in
the window.

Nothing is asked of the structure or of the rows but that reading all of
them succeeds; a kept record is the very record that is read without a
window, complete with everything below it.
-/
import RecordQuery.Proofs.Loading.Windowed

namespace RecordQuery

namespace Window

variable {α β : Type}

theorem map_part (window : Window) (f : α → β) (xs : List α) :
    (window.part xs).map f = window.part (xs.map f) := by
  rw [part, part, map_limited, List.map_drop]

/-- A window that has what it wants of a list has its part of all that goes
on with the list. -/
theorem part_append {window : Window} {n : Nat} (htake : window.take = some n) {xs : List α}
    (hlength : (xs.drop window.skip).length = n) (ys : List α) :
    window.part (xs ++ ys) = xs.drop window.skip := by
  rw [part, List.drop_append, limited_append htake hlength]

/-- A window that wants no less than there is has all behind what it
skips. -/
theorem part_of_le {window : Window} {xs : List α}
    (h : ∀ n, window.take = some n → xs.length - window.skip ≤ n) :
    window.part xs = xs.drop window.skip :=
  limited_of_le fun n htake => by
    rw [List.length_drop]
    exact h n htake

end Window

namespace Structure

variable {s : Structure} {window : Window} {failure : Option Error} {index : Nat}
  {p next : Progress} {row : Row} {rest : List Row} {kept out : List Record}

-- ============================================================== progress

namespace Progress

/-- Where reading all rows can stand: before the first, or in a record behind
those kept. -/
inductive Whole : Progress → Prop where
  | start : Whole {}
  | inRecord (records : List Record) (key : List Value) (node : Node) :
      Whole { records, begun := records.length + 1, current := some (key, some node) }

/-- Where reading within a window stands when reading all rows stands
here. -/
def within (window : Window) (p : Progress) : Progress where
  records := p.records.drop window.skip
  begun := p.begun
  current := p.current.map fun (key, node) =>
    (key, if window.skip < p.begun then node else none)

theorem isLeftBy_within (window : Window) (p : Progress) (key : List Value) :
    (p.within window).isLeftBy key = p.isLeftBy key := by
  obtain ⟨records, begun, current⟩ := p
  cases current <;> rfl

/-- A record behind those skipped is at hand within a window as well. -/
theorem within_kept {records : List Record} (h : window.skip ≤ records.length)
    (key : List Value) (node : Option Node) :
    within window { records, begun := records.length + 1, current := some (key, node) }
      = { records := records.drop window.skip, begun := records.length + 1
          current := some (key, node) } := by
  unfold within
  dsimp only [Option.map_some]
  rw [if_pos (Nat.lt_succ_of_le h)]

/-- One of those skipped is not, and nor is any before it. -/
theorem within_skipped {records : List Record} (h : records.length < window.skip)
    (key : List Value) (node : Option Node) :
    within window { records, begun := records.length + 1, current := some (key, node) }
      = { records := [], begun := records.length + 1, current := some (key, none) } := by
  unfold within
  dsimp only [Option.map_some]
  rw [if_neg (Nat.not_lt.2 h), List.drop_eq_nil_of_le (Nat.le_of_lt h)]

/-- The record at hand is put behind those kept. -/
theorem records_of_finish (h : p.finish s = .ok kept) : p.records <+: kept := by
  unfold finish at h
  split at h
  · obtain ⟨record, -, rfl⟩ := map_eq_ok.1 h
    exact List.prefix_append _ _
  · cases h
    exact List.prefix_rfl

/-- All records begun are kept in the end, within a window those that are not
skipped. -/
theorem Whole.finish (hp : p.Whole) (h : p.finish s = .ok kept) (window : Window) :
    kept.length = p.begun ∧ (p.within window).finish s = .ok (kept.drop window.skip) := by
  cases hp with
  | start =>
      cases h
      exact ⟨rfl, rfl⟩
  | inRecord records key node =>
      obtain ⟨record, hrecord, rfl⟩ := map_eq_ok.1 h
      refine ⟨List.length_append, ?_⟩
      by_cases hskip : window.skip ≤ records.length
      · rw [within_kept hskip, List.drop_append_of_le_length hskip]
        exact map_eq_ok.2 ⟨record, hrecord, rfl⟩
      · have hskip := Nat.not_le.1 hskip
        have hall : (records ++ [record]).length ≤ window.skip := by
          rw [List.length_append]
          exact hskip
        rw [within_skipped hskip, List.drop_eq_nil_of_le hall]
        rfl

/-- A row that is absorbed is absorbed within a window, or passed over. -/
theorem Whole.absorb (hp : p.Whole) (h : p.absorb s row = .ok next) (window : Window) :
    next.Whole ∧ next.records = p.records ∧ next.begun = p.begun
      ∧ (p.within window).absorb s row = .ok (next.within window) := by
  cases hp with
  | start =>
      cases h
      exact ⟨.start, rfl, rfl, rfl⟩
  | inRecord records key node =>
      obtain ⟨⟨grown, left⟩, hgrown, rfl⟩ := map_eq_ok.1 h
      refine ⟨.inRecord records key grown, rfl, rfl, ?_⟩
      by_cases hskip : window.skip ≤ records.length
      · rw [within_kept hskip, within_kept hskip]
        exact map_eq_ok.2 ⟨_, hgrown, rfl⟩
      · have hskip := Nat.not_le.1 hskip
        rw [within_skipped hskip, within_skipped hskip]
        rfl

/-- A record that is begun is begun within a window, or skipped. -/
theorem begin_within (h : begin s {} row kept kept.length = .ok next) (window : Window) :
    next.Whole ∧ next.records = kept ∧ next.begun = kept.length + 1
      ∧ begin s window row (kept.drop window.skip) kept.length = .ok (next.within window) := by
  unfold begin at h
  dsimp only at h
  rw [if_neg (Nat.not_lt_zero _)] at h
  obtain ⟨started, hstarted, h⟩ := bind_eq_ok.1 h
  obtain ⟨⟨node, left⟩, hnode, rfl⟩ := map_eq_ok.1 h
  refine ⟨.inRecord kept _ node, rfl, rfl, ?_⟩
  unfold begin
  dsimp only
  by_cases hskip : window.skip ≤ kept.length
  · rw [within_kept hskip, if_neg (Nat.not_lt.2 hskip), hstarted]
    exact map_eq_ok.2 ⟨_, hnode, rfl⟩
  · have hskip := Nat.not_le.1 hskip
    rw [within_skipped hskip, if_pos hskip, List.drop_eq_nil_of_le (Nat.le_of_lt hskip)]

end Progress

-- =============================================================== reading

/-- Without a window reading does not stop before the rows end. -/
theorem of_readFrom_all (hleft : p.isLeftBy (s.keyOf row) = true)
    (hread : s.readFrom {} failure index p (row :: rest) = .ok out) :
    row.length = s.width ∧ ∃ kept next, p.finish s = .ok kept
      ∧ Progress.begin s {} row kept p.begun = .ok next
      ∧ s.readFrom {} failure (index + 1) next rest = .ok out := by
  cases hfinish : p.finish s with
  | error e =>
      rw [readFrom, if_pos hleft, hfinish] at hread
      split at hread <;> cases hread
  | ok kept =>
      obtain ⟨hrow, ⟨n, htake, -⟩ | ⟨-, next, hnext, hread⟩⟩ :=
        of_readFrom_begins hleft hfinish hread
      · cases htake
      · exact ⟨hrow, kept, next, rfl, hnext, hread⟩

/-- Reading goes on behind a row that is absorbed. -/
theorem readFrom_goesOn (hrow : row.length = s.width) (hleft : p.isLeftBy (s.keyOf row) = false)
    (hnext : p.absorb s row = .ok next) :
    s.readFrom window failure index p (row :: rest)
      = s.readFrom window failure (index + 1) next rest := by
  rw [readFrom, if_neg (not_not.2 hrow), hleft, if_neg Bool.false_ne_true, hnext]
  rfl

/-- Reading stops with another record if it has what is wanted. -/
theorem readFrom_full {n : Nat} (hrow : row.length = s.width)
    (hleft : p.isLeftBy (s.keyOf row) = true) (hfinish : p.finish s = .ok kept)
    (htake : window.take = some n) (hfull : n ≤ kept.length) :
    s.readFrom window failure index p (row :: rest) = .ok kept := by
  rw [readFrom, if_neg (not_not.2 hrow), if_pos hleft, hfinish]
  refine if_pos ?_
  rw [htake]
  exact decide_eq_true hfull

/-- Otherwise it goes on behind the row that begins the record. -/
theorem readFrom_begins (hrow : row.length = s.width) (hleft : p.isLeftBy (s.keyOf row) = true)
    (hfinish : p.finish s = .ok kept) (hwanted : ∀ n, window.take = some n → kept.length < n)
    (hnext : Progress.begin s window row kept p.begun = .ok next) :
    s.readFrom window failure index p (row :: rest)
      = s.readFrom window failure (index + 1) next rest := by
  rw [readFrom, if_neg (not_not.2 hrow), if_pos hleft, hfinish]
  refine (if_neg fun hfull => ?_).trans ?_
  · obtain ⟨n, htake, hle⟩ := (Option.any_eq_true _ _).1 hfull
    exact absurd (hwanted n htake) (Nat.not_lt.2 (of_decide_eq_true hle))
  · rw [hnext]
    rfl

/-- Reading all rows keeps what it has kept. -/
theorem records_of_readFrom : ∀ {index : Nat} {p : Progress}, p.Whole →
    s.readFrom {} failure index p rest = .ok out → p.records <+: out := by
  induction rest with
  | nil =>
      intro index p _ h
      unfold readFrom at h
      split at h
      · cases h
      · exact Progress.records_of_finish h
  | cons row rest ih =>
      intro index p hp h
      cases hleft : p.isLeftBy (s.keyOf row) with
      | true =>
          obtain ⟨-, kept, next, hfinish, hnext, h⟩ := of_readFrom_all hleft h
          rw [← (hp.finish hfinish {}).1] at hnext
          obtain ⟨hwhole, hrecords, -⟩ := Progress.begin_within hnext {}
          exact (Progress.records_of_finish hfinish).trans (hrecords ▸ ih hwhole h)
      | false =>
          obtain ⟨-, next, hnext, h⟩ := of_readFrom_goesOn hleft h
          obtain ⟨hwhole, hrecords, -⟩ := hp.absorb hnext {}
          exact hrecords ▸ ih hwhole h

/-- Reading within a window gives the part in the window of what reading all
rows gives. -/
theorem readFrom_within : ∀ {index : Nat} {p : Progress}, p.Whole →
    (∀ n, window.take = some n → p.begun - window.skip ≤ n) →
    s.readFrom {} failure index p rest = .ok out →
    s.readFrom window failure index (p.within window) rest = .ok (window.part out) := by
  induction rest with
  | nil =>
      intro index p hp hwanted h
      cases failure with
      | some e => cases h
      | none =>
          obtain ⟨hlength, hfinish⟩ := hp.finish h window
          rw [← hlength] at hwanted
          rw [Window.part_of_le hwanted]
          exact hfinish
  | cons row rest ih =>
      intro index p hp hwanted h
      cases hleft : p.isLeftBy (s.keyOf row) with
      | false =>
          obtain ⟨hrow, next, hnext, h⟩ := of_readFrom_goesOn hleft h
          obtain ⟨hwhole, -, hbegun, hwithin⟩ := hp.absorb hnext window
          rw [← Progress.isLeftBy_within window] at hleft
          rw [readFrom_goesOn hrow hleft hwithin]
          exact ih hwhole (hbegun ▸ hwanted) h
      | true =>
          obtain ⟨hrow, kept, next, hfinish, hnext, h⟩ := of_readFrom_all hleft h
          obtain ⟨hlength, hfinishWithin⟩ := hp.finish hfinish window
          rw [← hlength] at hnext hwanted
          obtain ⟨hwhole, hrecords, hbegun, hwithin⟩ := Progress.begin_within hnext window
          rw [← Progress.isLeftBy_within window] at hleft
          by_cases hfull : ∃ n, window.take = some n ∧ n ≤ (kept.drop window.skip).length
          · -- what is kept is all that is wanted, and all rows keep it
            obtain ⟨n, htake, hle⟩ := hfull
            have hmost : (kept.drop window.skip).length ≤ n := by
              rw [List.length_drop]
              exact hwanted n htake
            obtain ⟨more, rfl⟩ := hrecords ▸ records_of_readFrom hwhole h
            rw [readFrom_full hrow hleft hfinishWithin htake hle,
              Window.part_append htake (Nat.le_antisymm hmost hle)]
          · have hmore : ∀ n, window.take = some n → (kept.drop window.skip).length < n :=
              fun n htake => Nat.lt_of_not_le fun hle => hfull ⟨n, htake, hle⟩
            have hbegunWithin : (p.within window).begun = kept.length := hlength.symm
            rw [← hbegunWithin] at hwithin
            rw [readFrom_begins hrow hleft hfinishWithin hmore hwithin]
            refine ih hwhole (fun n htake => ?_) h
            have hless := hmore n htake
            rw [List.length_drop] at hless
            omega

/-- What is read within a window is the part in the window of what is read
without one. -/
theorem read_within {delivered : Cursor.Delivered} (h : s.read {} delivered = .ok out)
    (window : Window) : s.read window delivered = .ok (window.part out) := by
  have hnothing : Progress.within window {} = {} := by
    rw [Progress.within, List.drop_nil]
    rfl
  have hwanted : ∀ n, window.take = some n → 0 - window.skip ≤ n := fun n _ => by omega
  have hread := readFrom_within .start hwanted h
  rwa [hnothing] at hread

end Structure

-- ======================================================= the statement

/-- Windows are slices of what is read of a plan's rows. Where reading all
rows succeeds, reading them within any window does, and gives the records
in the window: each is what all the rows of its run are grouped into. -/
theorem Plan.read_window (catalog : Catalog) (dialect : Dialect) (m : Mapping)
    (inc : Include) (tableAlias : String) (offset : Nat) (limit : Option Nat) (plan : Plan)
    (hm : m ∈ catalog.mappings)
    (h : Plan.build catalog dialect m inc tableAlias offset limit = .ok plan)
    (delivered : Cursor.Delivered) (records : List Record)
    (hread : plan.layout.read {} delivered = .ok records) (window : Window) :
    plan.layout.read window delivered = .ok (window.part records)
      ∧ window.part records
        = (window.part (plan.layout.runs delivered.rows)).map plan.layout.grouped
      ∧ (plan.layout.runs delivered.rows).flatten = delivered.rows := by
  obtain ⟨hbuilt, hmapping, hoffset⟩ := Plan.layout_built h
  have hrecords : records = (plan.layout.runs delivered.rows).map plan.layout.grouped :=
    hbuilt.of_read (hmapping ▸ Catalog.consistent hm) (Plan.layout_distinct inc.distinct h)
      hoffset hread
  refine ⟨Structure.read_within hread window, ?_, Structure.flatten_runs _ _⟩
  rw [Window.map_part, hrecords]

/-- A member with several rows between two with one. -/
def betweenRows : List Row :=
  sponsoredRows.drop 3 ++ sponsoredRows.take 3 ++ sponsoredRows.drop 3

/-- The member in the middle is kept alone, with both of those sponsored. -/
theorem Plan.read_window_between : ∃ plan first middle last,
    Plan.build memberCatalog Flavor.postgresql.dialect memberMapping sponsoredInclude "m" 0 none
        = .ok plan
      ∧ plan.layout.read {} ⟨betweenRows, none⟩ = .ok [first, middle, last]
      ∧ ((middle.related.lookup "sponsored").getD []).length = 2
      ∧ plan.layout.read { skip := 1, take := some 1 } ⟨betweenRows, none⟩ = .ok [middle] := by
  obtain ⟨plan, first, middle, last, hbuild, hread, hchildren⟩ : ∃ plan first middle last,
      Plan.build memberCatalog Flavor.postgresql.dialect memberMapping sponsoredInclude "m" 0 none
          = .ok plan
        ∧ plan.layout.read {} ⟨betweenRows, none⟩ = .ok [first, middle, last]
        ∧ ((middle.related.lookup "sponsored").getD []).length = 2 :=
    ⟨_, _, _, _, rfl, rfl, by decide⟩
  refine ⟨plan, first, middle, last, hbuild, hread, hchildren, ?_⟩
  exact (Plan.read_window memberCatalog Flavor.postgresql.dialect memberMapping sponsoredInclude
    "m" 0 none plan List.mem_cons_self hbuild ⟨betweenRows, none⟩
    [first, middle, last] hread { skip := 1, take := some 1 }).1

end RecordQuery
