/-
Reading rows is grouping them. While rows are read, the records kept are
those of the runs that are over, and the node at hand is that of the run
so far: a row that goes on with the run is absorbed, any other ends it and
begins the next. So the records are those of the runs, unless a row is at
fault; then the first that is says so.
-/
import RecordQuery.Proofs.Loading.Finish

namespace RecordQuery

namespace Structure

variable {catalog : Catalog} {s : Structure} {row : Row}

-- ================================================================ faults

theorem firstFrom_cons_none (start : Nat) (rest : List (Option Fault)) :
    firstFrom start (none :: rest) = firstFrom (start + 1) rest := rfl

theorem firstFrom_eq_none_iff {faults : List (Option Fault)} :
    ∀ {start : Nat}, firstFrom start faults = none ↔ ∀ fault ∈ faults, fault = none := by
  induction faults with
  | nil => simp [firstFrom]
  | cons fault rest ih =>
      intro start
      cases fault with
      | some f => simp [firstFrom]
      | none => simpa [firstFrom_cons_none] using ih

theorem faultAt_nil (s : Structure) (row : Row) :
    s.faultAt [] row = (faultIn row s).or ((s.begun [] row).findSome? (faultIn row)) :=
  findSome?_cons_or _ _ _

theorem faultAt_of_ne_nil (s : Structure) {before : List Row} (h : before ≠ []) (row : Row) :
    s.faultAt before row = (s.begun before row).findSome? (faultIn row) := by
  cases before with
  | nil => exact absurd rfl h
  | cons first rest => rfl

-- ================================================================== rows

theorem headD_append {run : List Row} (h : run ≠ []) (row : Row) :
    (run ++ [row]).headD [] = run.headD [] := by
  cases run with
  | nil => exact absurd rfl h
  | cons first rest => rfl

/-- Where reading stands in a run: the records of the runs before, and the
node of the run so far. -/
def Progress.inRun (s : Structure) (records : List Record) (begun : Nat) (run : List Row) :
    Progress :=
  { records, begun, current := some (s.keyOf (run.headD []), some (s.nodeOf run)) }

theorem Progress.finish_inRun (h : s.Built catalog) (hm : s.mapping.Consistent)
    (hd : s.Distinct) (records : List Record) (begun : Nat) (run : List Row) :
    (Progress.inRun s records begun run).finish s = .ok (records ++ [s.grouped run]) := by
  unfold finish inRun
  dsimp only
  rw [h.finish_nodeOf hm hd run]
  rfl

/-- A row that goes on with a run makes it longer, if it is not at
fault. -/
theorem Progress.absorb_inRun (h : s.Built catalog) (hrow : s.offset + s.width ≤ row.length)
    {run : List Row} (hrun : run ≠ []) (records : List Record) (begun : Nat) :
    (Progress.inRun s records begun run).absorb s row = match s.faultAt run row with
      | some f => .error f
      | none => .ok (Progress.inRun s records begun (run ++ [row])) := by
  have habsorb := h.absorb_nodeOf hrun hrow
  rw [← faultAt_of_ne_nil s hrun] at habsorb
  unfold absorb inRun
  dsimp only
  rw [headD_append hrun]
  cases hf : s.faultAt run row with
  | some f =>
      rw [hf] at habsorb
      have hstep : s.absorb (s.nodeOf run) row = .error f := habsorb
      rw [hstep]
      rfl
  | none =>
      rw [hf] at habsorb
      obtain ⟨left, hstep, -⟩ := habsorb
      rw [hstep]
      rfl

/-- Any other row begins a run, if it is not at fault. -/
theorem Progress.begin_inRun (h : s.Built catalog) (hm : s.mapping.Consistent)
    (hrow : s.offset + s.width ≤ row.length) (records : List Record) (begun : Nat) :
    Progress.begin s {} row records begun = match s.faultAt [] row with
      | some f => .error f
      | none => .ok (Progress.inRun s records (begun + 1) [row]) := by
  have hboth := h.begin_nodeOf hm hrow
  rw [← faultAt_nil] at hboth
  have hbegin : Progress.begin s {} row records begun
      = (s.start row >>= fun started => s.absorb started.1 started.2).map fun absorbed =>
        { records, begun := begun + 1, current := some (s.keyOf row, some absorbed.1) } := by
    unfold begin
    rw [if_neg (Nat.not_lt_zero _)]
    cases s.start row with
    | error f => rfl
    | ok started => rfl
  rw [hbegin]
  cases hf : s.faultAt [] row with
  | some f =>
      rw [hf] at hboth
      rw [show _ = Except.error f from hboth]
      rfl
  | none =>
      rw [hf] at hboth
      obtain ⟨left, hstep, -⟩ := hboth
      rw [hstep]
      rfl

-- =============================================================== reading

/-- The outcome of reading: the first fault, or the records. -/
def reported (fault : Option (Nat × Fault)) (records : List Record) :
    Except Error (List Record) :=
  match fault with
  | some (i, f) => .error ((f : Error).noted s!"row {i}")
  | none => .ok records

/-- Reading goes on with the run at hand as far as the rows do, and then with
the runs of what is left. -/
theorem Built.readFrom_inRun (h : s.Built catalog) (hm : s.mapping.Consistent)
    (hd : s.Distinct) (hoffset : s.offset = 0) {rest : List Row} :
    ∀ (index : Nat) (records : List Record) (begun : Nat) (run : List Row), run ≠ [] →
      (∀ row ∈ rest, row.length = s.width) →
      s.readFrom {} none index (.inRun s records begun run) rest
        = reported
          (firstFrom index
            (s.faultsAfter run (rest.takeWhile (s.continues (run.headD [])))
              ++ (s.runs (rest.dropWhile (s.continues (run.headD [])))).flatMap
                (s.faultsAfter [])))
          (records
            ++ ((run ++ rest.takeWhile (s.continues (run.headD [])))
              :: s.runs (rest.dropWhile (s.continues (run.headD [])))).map s.grouped) := by
  induction rest with
  | nil =>
      intro index records begun run hrun _
      have hfinish := Progress.finish_inRun h hm hd records begun run
      rw [readFrom]
      simp only [List.takeWhile_nil, List.dropWhile_nil, runs, List.append_nil]
      exact hfinish
  | cons row rest ih =>
      intro index records begun run hrun hwide
      obtain ⟨hrow, hwide⟩ := List.forall_mem_cons.1 hwide
      have hwithin : s.offset + s.width ≤ row.length := by omega
      have hleft : (Progress.inRun s records begun run).isLeftBy (s.keyOf row)
          = !s.continues (run.headD []) row := rfl
      rw [readFrom, if_neg (not_not.2 hrow), hleft]
      cases hcontinues : s.continues (run.headD []) row with
      | true =>
          -- the row belongs to the run at hand
          have hrest := ih (index + 1) records begun (run ++ [row])
            (List.append_ne_nil_of_right_ne_nil _ (List.cons_ne_nil _ _)) hwide
          rw [headD_append hrun, List.append_assoc, List.singleton_append] at hrest
          rw [List.takeWhile_cons_of_pos hcontinues, List.dropWhile_cons_of_pos hcontinues,
            faultsAfter, List.cons_append, Bool.not_true, if_neg Bool.false_ne_true,
            Progress.absorb_inRun h hwithin hrun]
          cases s.faultAt run row with
          | some f => rfl
          | none => exact hrest
      | false =>
          -- the run is over, and the row begins the next
          have hnot : ¬s.continues (run.headD []) row = true := by
            rw [hcontinues]
            exact Bool.false_ne_true
          have hrest := ih (index + 1) (records ++ [s.grouped run]) (begun + 1) [row]
            (List.cons_ne_nil _ _) hwide
          rw [List.takeWhile_cons_of_neg hnot, List.dropWhile_cons_of_neg hnot, runs,
            faultsAfter, List.flatMap_cons, faultsAfter, List.nil_append, List.nil_append,
            Bool.not_false, if_pos rfl, Progress.finish_inRun h hm hd]
          show (do
            let p ← atRow index (Progress.begin s {} row (records ++ [s.grouped run]) begun)
            s.readFrom {} none (index + 1) p rest) = _
          rw [Progress.begin_inRun h hm hwithin, List.append_nil, List.map_cons]
          rw [List.append_assoc, List.singleton_append] at hrest
          cases s.faultAt [] row with
          | some f => rfl
          | none => exact hrest

/-- Reading all rows gives the records of their runs, unless a row is at
fault. -/
theorem Built.read_eq (h : s.Built catalog) (hm : s.mapping.Consistent) (hd : s.Distinct)
    (hoffset : s.offset = 0) {rows : List Row} (hwide : ∀ row ∈ rows, row.length = s.width) :
    s.read {} ⟨rows, none⟩ = reported (s.firstFault rows) ((s.runs rows).map s.grouped) := by
  cases rows with
  | nil =>
      unfold read
      rw [readFrom, firstFault, faults, runs]
      rfl
  | cons row rest =>
      obtain ⟨hrow, hwide⟩ := List.forall_mem_cons.1 hwide
      have hwithin : s.offset + s.width ≤ row.length := by omega
      have hrest := h.readFrom_inRun hm hd hoffset 1 [] 1 [row] (List.cons_ne_nil _ _) hwide
      unfold read
      rw [readFrom, if_neg (not_not.2 hrow)]
      show (do
        let p ← atRow 0 (Progress.begin s {} row [] 0)
        s.readFrom {} none 1 p rest) = _
      rw [Progress.begin_inRun h hm hwithin, firstFault, faults, runs, List.flatMap_cons,
        faultsAfter]
      cases s.faultAt [] row with
      | some f => rfl
      | none => exact hrest

end Structure

-- ======================================================= the statement

/-- Reading all rows of a plan groups them. It gives a record for each run
of rows whose key equals that of the run's first row, in row order, as
`Structure.grouped` says; or, if a record that begins in a row does not
take the row's values, it fails with the position of the first such row. -/
theorem Plan.read_eq_grouping (catalog : Catalog) (dialect : Dialect) (m : Mapping)
    (inc : Include) (tableAlias : String) (offset : Nat) (limit : Option Nat) (plan : Plan)
    (hm : m ∈ catalog.mappings)
    (h : Plan.build catalog dialect m inc tableAlias offset limit = .ok plan)
    (rows : List Row) (hwide : ∀ row ∈ rows, row.length = plan.layout.width) :
    plan.layout.read {} ⟨rows, none⟩
        = (match plan.layout.firstFault rows with
          | some (i, fault) => .error ((fault : Error).noted s!"row {i}")
          | none => .ok ((plan.layout.runs rows).map plan.layout.grouped))
      ∧ (plan.layout.runs rows).flatten = rows
      ∧ (plan.layout.faults rows).length = rows.length := by
  obtain ⟨hbuilt, hmapping, hoffset⟩ := Plan.layout_built h
  refine ⟨?_, Structure.flatten_runs _ _, Structure.length_faults _ _⟩
  rw [hbuilt.read_eq (hmapping ▸ Catalog.consistent hm) (Plan.layout_distinct inc.distinct h)
    hoffset hwide]
  rfl

/-- Members with those they sponsored, and the sponsor of each of those. -/
def sponsoredInclude : Include where
  tree :=
    { fields := ["number"]
      relations :=
        [("sponsored",
          { fields := ["number"], relations := [("sponsor", { fields := ["number"] })] })] }

/-- A related record that is repeated with another sponsor, one without a
sponsor, and a row without related records. -/
def sponsoredRows : List Row :=
  [[.text "a", .int64 1, .int64 1, .text "a", .int64 2, .int64 2, .text "a", .int64 1, .int64 1],
   [.text "a", .int64 1, .int64 1, .text "a", .int64 3, .int64 3, .null, .null, .null],
   [.text "a", .int64 1, .int64 1, .text "a", .int64 2, .int64 2, .text "b", .int64 9, .int64 9],
   [.text "b", .int64 1, .int64 1, .null, .null, .null, .null, .null, .null]]

/-- Three rows of one record, and a row of another. -/
theorem Plan.read_sponsored : ∃ plan,
    Plan.build memberCatalog Flavor.postgresql.dialect memberMapping sponsoredInclude "m" 0 none
        = .ok plan
      ∧ (∀ row ∈ sponsoredRows, row.length = plan.layout.width)
      ∧ (plan.layout.runs sponsoredRows).map List.length = [3, 1]
      ∧ plan.layout.read {} ⟨sponsoredRows, none⟩
        = .ok ((plan.layout.runs sponsoredRows).map plan.layout.grouped) := by
  obtain ⟨plan, hbuild, hwide, hruns, hnone⟩ : ∃ plan,
      Plan.build memberCatalog Flavor.postgresql.dialect memberMapping sponsoredInclude "m" 0
          none = .ok plan
        ∧ (∀ row ∈ sponsoredRows, row.length = plan.layout.width)
        ∧ (plan.layout.runs sponsoredRows).map List.length = [3, 1]
        ∧ plan.layout.firstFault sponsoredRows = none :=
    ⟨_, rfl, by decide, by decide +kernel, by decide +kernel⟩
  refine ⟨plan, hbuild, hwide, hruns, ?_⟩
  rw [(Plan.read_eq_grouping memberCatalog Flavor.postgresql.dialect memberMapping
    sponsoredInclude "m" 0 none plan List.mem_cons_self hbuild
    sponsoredRows hwide).1, hnone]

end RecordQuery
