/-
What reading can fail with. Whatever a record is asked for while rows are
read, it is of the model that is asked for: it was made blank by the mapping
of its structure, what a relation is given was made by the mapping of the
relation's target, and what is read in the end was made by the mapping that
the plan is built on. So no setter meets a record of another model, and
nothing is left to fail but a column that does not take the value in its
slot.

`loads` says which slots are loaded from which row. Rows of a run that is
skipped, and those behind the last run that is wanted, load nothing; a row
within the window loads the slots of every record that begins in it. Reading
then goes on as long as each of these values is taken, and fails with the
first that is not.
-/
import RecordQuery.Proofs.Repository.Find

namespace RecordQuery

/-- Whether a window holds what stands at a position. -/
def Window.holds (window : Window) (k : Nat) : Bool :=
  decide (window.skip ≤ k) && window.take.all fun n => k < window.skip + n

theorem Window.holds_iff {window : Window} {k : Nat} :
    window.holds k = true
      ↔ window.skip ≤ k ∧ ∀ n, window.take = some n → k < window.skip + n := by
  unfold holds
  rw [Bool.and_eq_true, decide_eq_true_iff]
  cases window.take with
  | none => simp
  | some n => simp

namespace Structure

variable {catalog : Catalog} {s : Structure} {window : Window} {row : Row} {before run : List Row}
  {kept : List Record} {index k : Nat}

-- ================================================================= loads

/-- The slots that are loaded from a row of a record, given the record's
rows before. -/
def loadedAt (s : Structure) (before : List Row) (row : Row) : List (StructureColumn × Nat) :=
  ((if before.isEmpty then [s] else []) ++ s.begun before row).flatMap slots

/-- Those that are loaded if the record is the one at a position. -/
def loadedWithin (s : Structure) (window : Window) (k : Nat) (before : List Row) (row : Row) :
    List (StructureColumn × Nat) :=
  if window.holds k then s.loadedAt before row else []

/-- What is loaded from rows of a record behind those before, row by row. -/
def loadsOf (s : Structure) (window : Window) (k : Nat) (before : List Row) :
    List Row → List (Row × List (StructureColumn × Nat))
  | [] => []
  | row :: rest =>
    (row, s.loadedWithin window k before row) :: s.loadsOf window k (before ++ [row]) rest

/-- What is loaded from runs, the first of them at a position. -/
def loadsFrom (s : Structure) (window : Window) (k : Nat) :
    List (List Row) → List (Row × List (StructureColumn × Nat))
  | [] => []
  | run :: rest => s.loadsOf window k [] run ++ s.loadsFrom window (k + 1) rest

/-- The rows, each with the slots that are loaded from it when the rows are
read within a window. -/
def loads (s : Structure) (window : Window) (rows : List Row) :
    List (Row × List (StructureColumn × Nat)) :=
  s.loadsFrom window 0 (s.runs rows)

theorem map_fst_loadsOf (s : Structure) (window : Window) (k : Nat) (rows : List Row) :
    ∀ before, (s.loadsOf window k before rows).map Prod.fst = rows := by
  induction rows with
  | nil => exact fun _ => rfl
  | cons row rest ih =>
      intro before
      rw [loadsOf, List.map_cons, ih]

theorem map_fst_loadsFrom (s : Structure) (window : Window) (runs : List (List Row)) :
    ∀ k, (s.loadsFrom window k runs).map Prod.fst = runs.flatten := by
  induction runs with
  | nil => exact fun _ => rfl
  | cons run rest ih =>
      intro k
      rw [loadsFrom, List.map_append, map_fst_loadsOf, ih, List.flatten_cons]

/-- The fault of the first value that is refused of those loaded from a
row. -/
def refusal (load : Row × List (StructureColumn × Nat)) : Option Fault :=
  load.2.findSome? (slotFault load.1)

theorem faultAt_eq (s : Structure) (before : List Row) (row : Row) :
    s.faultAt before row = refusal (row, s.loadedAt before row) := by
  unfold faultAt refusal loadedAt
  generalize (if before.isEmpty then [s] else []) ++ s.begun before row = structures
  induction structures with
  | nil => rfl
  | cons s rest ih =>
      rw [findSome?_cons_or, List.flatMap_cons, List.findSome?_append, ih]
      rfl

/-- The first value that is refused, with the position of its row counted
from a start. -/
def firstRefusal (start : Nat) (loads : List (Row × List (StructureColumn × Nat))) :
    Option (Nat × Fault) :=
  firstFrom start (loads.map refusal)

theorem firstRefusal_cons (start : Nat) (load : Row × List (StructureColumn × Nat))
    (loads : List (Row × List (StructureColumn × Nat))) :
    firstRefusal start (load :: loads) = match refusal load with
      | some f => some (start, f)
      | none => firstRefusal (start + 1) loads := by
  unfold firstRefusal
  rw [List.map_cons]
  cases refusal load with
  | some f => rfl
  | none => rfl

/-- Where nothing is loaded nothing is refused. -/
theorem firstRefusal_nothing {loads : List (Row × List (StructureColumn × Nat))}
    (h : ∀ load ∈ loads, load.2 = []) (start : Nat) : firstRefusal start loads = none := by
  unfold firstRefusal
  rw [firstFrom_eq_none_iff, List.forall_mem_map]
  intro load hload
  rw [refusal, h load hload]
  rfl

theorem snd_of_mem_loadsOf (hholds : window.holds k = false) {rows : List Row} :
    ∀ {before : List Row}, ∀ load ∈ s.loadsOf window k before rows, load.2 = [] := by
  induction rows with
  | nil =>
      intro before load hload
      cases hload
  | cons row rest ih =>
      intro before load hload
      rw [loadsOf, loadedWithin, hholds, List.mem_cons] at hload
      obtain rfl | hload := hload
      · rfl
      · exact ih load hload

/-- Behind the last run that is wanted nothing is loaded. -/
theorem snd_of_mem_loadsFrom {runs : List (List Row)} :
    ∀ {k : Nat}, (∀ j, k ≤ j → window.holds j = false) →
      ∀ load ∈ s.loadsFrom window k runs, load.2 = [] := by
  induction runs with
  | nil =>
      intro k _ load hload
      cases hload
  | cons run rest ih =>
      intro k hbehind load hload
      rw [loadsFrom, List.mem_append] at hload
      obtain hload | hload := hload
      · exact snd_of_mem_loadsOf (hbehind k (Nat.le_refl k)) load hload
      · exact ih (fun j hj => hbehind j (by omega)) load hload

-- ============================================================== progress

/-- Where reading within a window stands in a run: the records kept, and the
node of the run so far unless the run is skipped. -/
def Progress.standing (s : Structure) (window : Window) (kept : List Record) (k : Nat)
    (run : List Row) : Progress where
  records := kept
  begun := k + 1
  current := some (s.keyOf (run.headD []),
    if window.skip ≤ k then some (s.nodeOf run) else none)

namespace Progress

theorem standing_kept (hskip : window.skip ≤ k) :
    standing s window kept k run = inRun s kept (k + 1) run := by
  unfold standing
  rw [if_pos hskip]
  rfl

/-- A row that goes on with the run is absorbed, if what is loaded from it is
taken. -/
theorem absorb_standing (h : s.Built catalog) (hrow : s.offset + s.width ≤ row.length)
    (hrun : run ≠ []) (hwanted : ∀ n, window.take = some n → k < window.skip + n) :
    (standing s window kept k run).absorb s row
      = match refusal (row, s.loadedWithin window k run row) with
        | some f => .error f
        | none => .ok (standing s window kept k (run ++ [row])) := by
  by_cases hskip : window.skip ≤ k
  · have hholds : window.holds k = true := Window.holds_iff.2 ⟨hskip, hwanted⟩
    have hloaded : s.loadedWithin window k run row = s.loadedAt run row := if_pos hholds
    rw [standing_kept hskip, standing_kept hskip, hloaded, ← faultAt_eq]
    exact absorb_inRun h hrow hrun kept (k + 1)
  · have hholds : ¬window.holds k = true := fun hholds => hskip (Window.holds_iff.1 hholds).1
    rw [loadedWithin, if_neg hholds]
    unfold standing
    rw [if_neg hskip, if_neg hskip, headD_append hrun]
    rfl

/-- Any other row begins a run, if what is loaded from it is taken. -/
theorem begin_standing (h : s.Built catalog) (hm : s.mapping.Consistent)
    (hrow : s.offset + s.width ≤ row.length)
    (hwanted : ∀ n, window.take = some n → k < window.skip + n) :
    begin s window row kept k
      = match refusal (row, s.loadedWithin window k [] row) with
        | some f => .error f
        | none => .ok (standing s window kept k [row]) := by
  by_cases hskip : window.skip ≤ k
  · have hholds : window.holds k = true := Window.holds_iff.2 ⟨hskip, hwanted⟩
    have hunskipped : begin s window row kept k = begin s {} row kept k := by
      unfold begin
      rw [if_neg (Nat.not_lt.2 hskip), if_neg (Nat.not_lt_zero _)]
    have hloaded : s.loadedWithin window k [] row = s.loadedAt [] row := if_pos hholds
    rw [hunskipped, standing_kept hskip, hloaded, ← faultAt_eq]
    exact begin_inRun h hm hrow kept k
  · have hholds : ¬window.holds k = true := fun hholds => hskip (Window.holds_iff.1 hholds).1
    rw [loadedWithin, if_neg hholds]
    unfold begin standing
    rw [if_neg hskip, if_pos (Nat.lt_of_not_le hskip)]
    rfl

/-- A run that is over has its record kept unless it is skipped, and that
never fails. -/
theorem finish_standing (h : s.Built catalog) (hm : s.mapping.Consistent) (hd : s.Distinct)
    (run : List Row) (hkept : kept.length = k - window.skip) :
    ∃ records, (standing s window kept k run).finish s = .ok records
      ∧ records.length = k + 1 - window.skip := by
  by_cases hskip : window.skip ≤ k
  · refine ⟨kept ++ [s.grouped run], ?_, ?_⟩
    · rw [standing_kept hskip]
      exact finish_inRun h hm hd kept (k + 1) run
    · rw [List.length_append, List.length_singleton]
      omega
  · refine ⟨kept, ?_, by omega⟩
    unfold standing finish
    rw [if_neg hskip]

end Progress

-- =============================================================== reading

/-- An outcome fails with a fault, if there is one, and succeeds
otherwise. -/
def Reads (fault : Option (Nat × Fault)) (outcome : Except Error (List Record)) : Prop :=
  match fault with
  | some (i, f) => outcome = .error ((f : Error).noted s!"row {i}")
  | none => ∃ records, outcome = .ok records

/-- A row is taken up, if what is loaded from it is taken, and reading goes
on behind it. -/
theorem Reads.step {load : Row × List (StructureColumn × Nat)}
    {loads : List (Row × List (StructureColumn × Nat))} {next : Progress}
    {go : Progress → Except Error (List Record)} {taken : Except Fault Progress}
    (htaken : taken = match refusal load with
      | some f => .error f
      | none => .ok next)
    (hnext : Reads (firstRefusal (index + 1) loads) (go next)) :
    Reads (firstRefusal index (load :: loads)) (atRow index taken >>= go) := by
  rw [firstRefusal_cons, htaken]
  cases refusal load with
  | some f => exact rfl
  | none => exact hnext

/-- A row that belongs to the record at hand. -/
theorem readFrom_row {p : Progress} {rest : List Row} (hrow : row.length = s.width)
    (hleft : p.isLeftBy (s.keyOf row) = false) :
    s.readFrom window none index p (row :: rest)
      = atRow index (p.absorb s row) >>= fun p => s.readFrom window none (index + 1) p rest := by
  rw [readFrom, if_neg (not_not.2 hrow), hleft, if_neg Bool.false_ne_true]

/-- A row of another record begins a run, unless the last one wanted is over
with it; then the row and those behind it are left. -/
theorem Built.reads_begin (h : s.Built catalog) (hm : s.mapping.Consistent)
    (hoffset : s.offset = 0) {p : Progress} {rest : List Row} (hrow : row.length = s.width)
    (hleft : p.isLeftBy (s.keyOf row) = true) (hfinish : p.finish s = .ok kept)
    (hkept : kept.length = p.begun - window.skip)
    (hon : (∀ n, window.take = some n → p.begun < window.skip + n) →
      Reads (firstRefusal (index + 1)
          (s.loadsOf window p.begun [row] (rest.takeWhile (s.continues row))
            ++ s.loadsFrom window (p.begun + 1) (s.runs (rest.dropWhile (s.continues row)))))
        (s.readFrom window none (index + 1) (.standing s window kept p.begun [row]) rest)) :
    Reads (firstRefusal index (s.loadsFrom window p.begun (s.runs (row :: rest))))
      (s.readFrom window none index p (row :: rest)) := by
  rw [readFrom, if_neg (not_not.2 hrow), if_pos hleft, hfinish]
  show Reads _ (if window.take.any (· ≤ kept.length) then pure kept
    else atRow index (Progress.begin s window row kept p.begun) >>= fun p =>
      s.readFrom window none (index + 1) p rest)
  by_cases hfull : window.take.any (· ≤ kept.length) = true
  · obtain ⟨n, htake, hle⟩ := (Option.any_eq_true _ _).1 hfull
    have hbehind : ∀ j, p.begun ≤ j → window.holds j = false := by
      intro j hj
      rw [Bool.eq_false_iff]
      intro hholds
      obtain ⟨hskip, hwanted⟩ := Window.holds_iff.1 hholds
      have hlt := hwanted n htake
      have hle := of_decide_eq_true hle
      omega
    rw [if_pos hfull, firstRefusal_nothing (snd_of_mem_loadsFrom hbehind)]
    exact ⟨kept, rfl⟩
  · have hwanted : ∀ n, window.take = some n → p.begun < window.skip + n := by
      intro n htake
      by_contra hmost
      apply hfull
      rw [htake]
      exact decide_eq_true (by omega)
    rw [if_neg hfull, runs, loadsFrom, loadsOf, List.nil_append]
    exact Reads.step (Progress.begin_standing h hm (by omega) hwanted) (hon hwanted)

/-- Reading goes on from a run with the rows of the run and then with those
of the runs to come. -/
theorem Built.reads_standing (h : s.Built catalog) (hm : s.mapping.Consistent)
    (hd : s.Distinct) (hoffset : s.offset = 0) {rest : List Row} :
    ∀ (index : Nat) (kept : List Record) (k : Nat) (run : List Row), run ≠ [] →
      kept.length = k - window.skip →
      (∀ n, window.take = some n → k < window.skip + n) →
      (∀ row ∈ rest, row.length = s.width) →
      Reads (firstRefusal index
          (s.loadsOf window k run (rest.takeWhile (s.continues (run.headD [])))
            ++ s.loadsFrom window (k + 1) (s.runs (rest.dropWhile (s.continues (run.headD []))))))
        (s.readFrom window none index (.standing s window kept k run) rest) := by
  induction rest with
  | nil =>
      intro index kept k run hrun hkept hwanted _
      obtain ⟨records, hfinish, -⟩ := Progress.finish_standing h hm hd run hkept
      simp only [List.takeWhile_nil, List.dropWhile_nil, runs, loadsOf, loadsFrom,
        List.append_nil]
      rw [readFrom]
      exact ⟨records, hfinish⟩
  | cons row rest ih =>
      intro index kept k run hrun hkept hwanted hwide
      obtain ⟨hrow, hwide⟩ := List.forall_mem_cons.1 hwide
      have hleft : (Progress.standing s window kept k run).isLeftBy (s.keyOf row)
          = !s.continues (run.headD []) row := rfl
      cases hcontinues : s.continues (run.headD []) row with
      | true =>
          -- the row belongs to the run at hand
          rw [hcontinues] at hleft
          have hrest := ih (index + 1) kept k (run ++ [row])
            (List.append_ne_nil_of_right_ne_nil run (List.cons_ne_nil row [])) hkept hwanted hwide
          rw [headD_append hrun] at hrest
          rw [List.takeWhile_cons_of_pos hcontinues, List.dropWhile_cons_of_pos hcontinues,
            loadsOf, List.cons_append, readFrom_row hrow hleft]
          exact Reads.step (Progress.absorb_standing h (by omega) hrun hwanted) hrest
      | false =>
          -- the run is over, and the row begins the next
          have hnot : ¬s.continues (run.headD []) row = true := by
            rw [hcontinues]
            exact Bool.false_ne_true
          rw [hcontinues] at hleft
          obtain ⟨records, hfinish, hlength⟩ := Progress.finish_standing h hm hd run hkept
          rw [List.takeWhile_cons_of_neg hnot, List.dropWhile_cons_of_neg hnot, loadsOf,
            List.nil_append]
          exact h.reads_begin hm hoffset hrow hleft hfinish hlength fun hwanted =>
            ih (index + 1) records (k + 1) [row] (List.cons_ne_nil row []) hlength hwanted hwide

/-- Reading rows within a window fails with the first value that is refused
of those it loads, and succeeds if there is none. -/
theorem Built.reads (h : s.Built catalog) (hm : s.mapping.Consistent) (hd : s.Distinct)
    (hoffset : s.offset = 0) (window : Window) {rows : List Row}
    (hwide : ∀ row ∈ rows, row.length = s.width) :
    Reads (firstRefusal 0 (s.loads window rows)) (s.read window ⟨rows, none⟩) := by
  unfold read loads
  cases rows with
  | nil =>
      rw [runs, readFrom]
      exact ⟨[], rfl⟩
  | cons row rest =>
      obtain ⟨hrow, hwide⟩ := List.forall_mem_cons.1 hwide
      have hkept : ([] : List Record).length = 0 - window.skip := (Nat.zero_sub _).symm
      exact h.reads_begin hm hoffset (p := {}) hrow rfl rfl hkept fun hwanted =>
        h.reads_standing hm hd hoffset 1 [] 0 [row] (List.cons_ne_nil row []) hkept hwanted hwide

-- ============================================================= refusals

/-- The columns take everything that is loaded from a row. -/
def Takes (load : Row × List (StructureColumn × Nat)) : Prop :=
  ∀ slot ∈ load.2, (slot.1.column.type.load (load.1.getD slot.2 .null)).isOk = true

instance (load : Row × List (StructureColumn × Nat)) : Decidable (Takes load) :=
  inferInstanceAs (Decidable (∀ slot ∈ load.2, _))

theorem slotFault_eq (row : Row) (slot : StructureColumn × Nat) :
    slotFault row slot = match slot.1.column.type.load (row.getD slot.2 .null) with
      | .ok _ => none
      | .error c => some (.conversion c) := by
  unfold slotFault slotValue ColumnType.normalize
  cases slot.1.column.type.load (row.getD slot.2 .null) with
  | ok x => rfl
  | error c => rfl

theorem refusal_eq_none_iff {load : Row × List (StructureColumn × Nat)} :
    refusal load = none ↔ Takes load := by
  unfold refusal Takes
  rw [List.findSome?_eq_none_iff]
  apply forall₂_congr
  intro slot _
  rw [slotFault_eq]
  cases slot.1.column.type.load (load.1.getD slot.2 .null) with
  | ok x => simp [Except.isOk, Except.toBool]
  | error c => simp [Except.isOk, Except.toBool]

theorem firstRefusal_eq_none_iff {loads : List (Row × List (StructureColumn × Nat))}
    {start : Nat} : firstRefusal start loads = none ↔ ∀ load ∈ loads, Takes load := by
  unfold firstRefusal
  rw [firstFrom_eq_none_iff, List.forall_mem_map]
  exact forall₂_congr fun load _ => refusal_eq_none_iff

/-- What is refused is a value that its column cannot be read from. -/
theorem of_refusal {load : Row × List (StructureColumn × Nat)} {f : Fault}
    (h : refusal load = some f) : ∃ slot ∈ load.2, ∃ c,
      slot.1.column.type.load (load.1.getD slot.2 .null) = .error c ∧ f = .conversion c := by
  obtain ⟨slot, hslot, hfault⟩ := List.exists_of_findSome?_eq_some h
  rw [slotFault_eq] at hfault
  cases hload : slot.1.column.type.load (load.1.getD slot.2 .null) with
  | ok x =>
    rw [hload] at hfault
    cases hfault
  | error c =>
    rw [hload] at hfault
    cases hfault
    exact ⟨slot, hslot, c, hload, rfl⟩

/-- What is refused first is refused in a row behind rows of which everything
is taken. -/
theorem of_firstRefusal {loads : List (Row × List (StructureColumn × Nat))} {i : Nat}
    {f : Fault} : ∀ {start : Nat}, firstRefusal start loads = some (i, f) →
      ∃ j load, i = start + j ∧ loads[j]? = some load ∧ refusal load = some f
        ∧ ∀ earlier ∈ loads.take j, Takes earlier := by
  induction loads with
  | nil =>
      intro start h
      cases h
  | cons load rest ih =>
      intro start h
      rw [firstRefusal_cons] at h
      cases hload : refusal load with
      | some g =>
          rw [hload] at h
          cases h
          exact ⟨0, load, rfl, rfl, hload, fun earlier hearlier => nomatch hearlier⟩
      | none =>
          rw [hload] at h
          obtain ⟨j, refused, hi, hrefused, hf, hearlier⟩ := ih h
          refine ⟨j + 1, refused, by omega, hrefused, hf, ?_⟩
          rw [List.take_succ_cons, List.forall_mem_cons]
          exact ⟨refusal_eq_none_iff.1 hload, hearlier⟩

end Structure

-- ======================================================= the statement

/-- Reading fails on nothing but values. Reading the rows of a plan within a
window succeeds if the columns take every value that is loaded, and all
records read are records of the model that was asked for; otherwise it
fails with the first value that is refused and the position of its row. In
no case does it come upon a record of another model. -/
theorem Plan.reads_unless_refused (catalog : Catalog) (dialect : Dialect) (m : Mapping)
    (inc : Include) (tableAlias : String) (offset : Nat) (limit : Option Nat) (plan : Plan)
    (hm : m ∈ catalog.mappings)
    (h : Plan.build catalog dialect m inc tableAlias offset limit = .ok plan)
    (window : Window) (rows : List Row) (hwide : ∀ row ∈ rows, row.length = plan.layout.width) :
    (plan.layout.loads window rows).map Prod.fst = rows
      ∧ ((∀ load ∈ plan.layout.loads window rows, Structure.Takes load)
          ∧ (∃ records, plan.layout.read window ⟨rows, none⟩ = .ok records
            ∧ Record.allOf m.model records = (.ok (), records))
        ∨ ∃ i row slots slot c, (plan.layout.loads window rows)[i]? = some (row, slots)
          ∧ (∀ load ∈ (plan.layout.loads window rows).take i, Structure.Takes load)
          ∧ slot ∈ slots
          ∧ slot.1.column.type.load (row.getD slot.2 .null) = .error c
          ∧ plan.layout.read window ⟨rows, none⟩
            = .error ((Fault.conversion c : Error).noted s!"row {i}"))
      ∧ ∀ e model, plan.layout.read window ⟨rows, none⟩ = .error e →
        Fault.argument (.wrongModel model) ∉ e.chain := by
  obtain ⟨hbuilt, hmapping, hoffset⟩ := Plan.layout_built h
  have hconsistent := hmapping ▸ Catalog.consistent hm
  have hreads :=
    hbuilt.reads hconsistent (Plan.layout_distinct inc.distinct h) hoffset window hwide
  refine ⟨?_, ?_⟩
  · unfold Structure.loads
    rw [Structure.map_fst_loadsFrom, Structure.flatten_runs]
  · cases hfirst : Structure.firstRefusal 0 (plan.layout.loads window rows) with
    | none =>
      rw [hfirst] at hreads
      obtain ⟨records, hread⟩ := hreads
      have hmodel : ∀ t ∈ records, t.model = m.model := by
        intro t ht
        rw [← hmapping]
        exact (hbuilt.typed_of_read hconsistent hread t ht).model
      refine ⟨Or.inl ⟨Structure.firstRefusal_eq_none_iff.1 hfirst, records, hread,
        Record.allOf_eq hmodel⟩, ?_⟩
      intro e model he
      rw [hread] at he
      cases he
    | some refused =>
      obtain ⟨i, f⟩ := refused
      rw [hfirst] at hreads
      obtain ⟨j, ⟨row, slots⟩, hi, hrow, hrefused, hearlier⟩ := Structure.of_firstRefusal hfirst
      obtain ⟨slot, hslot, c, hload, rfl⟩ := Structure.of_refusal hrefused
      rw [Nat.zero_add] at hi
      subst hi
      refine ⟨Or.inr ⟨i, row, slots, slot, c, hrow, hearlier, hslot, hload, hreads⟩, ?_⟩
      intro e model he
      rw [show _ = _ from hreads] at he
      cases he
      simp [Error.chain, Error.noted, Error.within, Error.ofFault]

/-- Rows of two members, the first of which has a text where a number is
asked for in what stands for its sponsor. -/
def refusedRows : List Row :=
  sponsoredRows.take 2
    ++ [[.text "a", .int64 1, .int64 1, .text "a", .int64 2, .int64 2, .text "b", .text "nine",
      .int64 9]]
    ++ sponsoredRows.drop 3

/-- The text is not looked at if the member is skipped. -/
theorem Plan.reads_refused_if_skipped : ∃ plan records,
    Plan.build memberCatalog Flavor.postgresql.dialect memberMapping sponsoredInclude "m" 0 none
        = .ok plan
      ∧ plan.layout.read { skip := 1 } ⟨refusedRows, none⟩ = .ok records
      ∧ Record.allOf "Member" records = (.ok (), records) := by
  obtain ⟨plan, hbuild, hwide, htaken⟩ : ∃ plan,
      Plan.build memberCatalog Flavor.postgresql.dialect memberMapping sponsoredInclude "m" 0
          none = .ok plan
        ∧ (∀ row ∈ refusedRows, row.length = plan.layout.width)
        ∧ ∀ load ∈ plan.layout.loads { skip := 1 } refusedRows, Structure.Takes load :=
    ⟨_, rfl, by decide, by decide +kernel⟩
  obtain ⟨-, ⟨-, records, hread, hall⟩ | ⟨i, row, slots, slot, c, hrow, -, hslot, hload, -⟩, -⟩ :=
    Plan.reads_unless_refused memberCatalog Flavor.postgresql.dialect memberMapping
      sponsoredInclude "m" 0 none plan List.mem_cons_self hbuild
      { skip := 1 } refusedRows hwide
  · exact ⟨plan, records, hbuild, hread, hall⟩
  · have htakes := htaken _ (List.mem_of_getElem? hrow) slot hslot
    rw [hload] at htakes
    cases htakes

end RecordQuery
