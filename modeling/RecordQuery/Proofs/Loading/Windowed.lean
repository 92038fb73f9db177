/-
Reading a window. A window counts runs of rows: the first ones are skipped
without being loaded, and reading stops with the first row behind the last
one wanted. So where reading a window succeeds, its records are those that
the runs in the window stand for, whatever the rows outside of it hold.
-/
import RecordQuery.Proofs.Loading.Read

namespace RecordQuery

namespace Window

variable {α β : Type}

/-- As much of a list as a window takes. -/
def limited (window : Window) (xs : List α) : List α :=
  match window.take with
  | some n => xs.take n
  | none => xs

/-- The part of a list that is in a window. -/
def part (window : Window) (xs : List α) : List α :=
  window.limited (xs.drop window.skip)

theorem limited_nil (window : Window) : window.limited ([] : List α) = [] := by
  unfold limited
  split
  · exact List.take_nil
  · rfl

theorem map_limited (window : Window) (f : α → β) (xs : List α) :
    (window.limited xs).map f = window.limited (xs.map f) := by
  unfold limited
  split
  · exact List.map_take
  · rfl

/-- A window takes all of what is no longer than it wants. -/
theorem limited_of_le {window : Window} {xs : List α}
    (h : ∀ n, window.take = some n → xs.length ≤ n) : window.limited xs = xs := by
  unfold limited
  split
  · next n htake => exact List.take_of_length_le (h n htake)
  · rfl

/-- Once a window has what it wants, it takes no more. -/
theorem limited_append {window : Window} {n : Nat} (htake : window.take = some n)
    {xs : List α} (hlength : xs.length = n) (ys : List α) : window.limited (xs ++ ys) = xs := by
  unfold limited
  rw [htake, ← hlength]
  exact List.take_left

theorem part_sublist (window : Window) (xs : List α) : (window.part xs).Sublist xs := by
  unfold part limited
  split
  · exact (List.take_sublist _ _).trans (List.drop_sublist _ _)
  · exact List.drop_sublist _ _

end Window

namespace Structure

variable {catalog : Catalog} {s : Structure} {window : Window} {failure : Option Error}
  {index : Nat} {p next : Progress} {row : Row} {rest : List Row} {kept out : List Record}

-- ============================================================== one row

theorem of_atRow {α : Type} {x : Except Fault α} {a : α} (h : atRow index x = .ok a) :
    x = .ok a := by
  cases x with
  | error f => cases h
  | ok b =>
      cases h
      rfl

/-- What reading does with a row of the record at hand. -/
theorem of_readFrom_goesOn (hleft : p.isLeftBy (s.keyOf row) = false)
    (hread : s.readFrom window failure index p (row :: rest) = .ok out) :
    row.length = s.width ∧ ∃ next, p.absorb s row = .ok next
      ∧ s.readFrom window failure (index + 1) next rest = .ok out := by
  rw [readFrom, hleft] at hread
  split at hread
  · cases hread
  · next hrow =>
    rw [if_neg Bool.false_ne_true] at hread
    obtain ⟨next, hnext, hread⟩ := bind_eq_ok.1 hread
    exact ⟨not_not.1 hrow, next, of_atRow hnext, hread⟩

/-- What reading does with a row of another record: it stops if it has what
is wanted, and begins the record otherwise. -/
theorem of_readFrom_begins (hleft : p.isLeftBy (s.keyOf row) = true)
    (hfinish : p.finish s = .ok kept)
    (hread : s.readFrom window failure index p (row :: rest) = .ok out) :
    row.length = s.width
      ∧ ((∃ n, window.take = some n ∧ n ≤ kept.length ∧ out = kept)
        ∨ (∀ n, window.take = some n → kept.length < n)
          ∧ ∃ next, Progress.begin s window row kept p.begun = .ok next
            ∧ s.readFrom window failure (index + 1) next rest = .ok out) := by
  rw [readFrom, if_pos hleft, hfinish] at hread
  split at hread
  · cases hread
  · next hrow =>
    refine ⟨not_not.1 hrow, ?_⟩
    obtain ⟨records, hrecords, hread⟩ := bind_eq_ok.1 hread
    cases hrecords
    split at hread
    · next hfull =>
      cases pure_eq_ok.1 hread
      obtain ⟨n, htake, hle⟩ := (Option.any_eq_true _ _).1 hfull
      exact Or.inl ⟨n, htake, of_decide_eq_true hle, rfl⟩
    · next hfull =>
      obtain ⟨next, hnext, hread⟩ := bind_eq_ok.1 hread
      refine Or.inr ⟨fun n htake => Nat.lt_of_not_le fun hle => hfull ?_, next, of_atRow hnext,
        hread⟩
      exact (Option.any_eq_true _ _).2 ⟨n, htake, decide_eq_true hle⟩

namespace Progress

/-- A row absorbed makes the run longer. -/
theorem of_absorb_inRun (h : s.Built catalog) (hoffset : s.offset = 0)
    (hrow : row.length = s.width) {run : List Row} (hrun : run ≠ []) {begun : Nat}
    (habsorb : (inRun s kept begun run).absorb s row = .ok next) :
    next = inRun s kept begun (run ++ [row]) := by
  rw [absorb_inRun h (by omega) hrun] at habsorb
  cases hfault : s.faultAt run row with
  | some f =>
      rw [hfault] at habsorb
      cases habsorb
  | none =>
      rw [hfault] at habsorb
      cases habsorb
      rfl

/-- Where records are no longer skipped, a row begins a run. -/
theorem of_begin_inRun (h : s.Built catalog) (hm : s.mapping.Consistent) (hoffset : s.offset = 0)
    (hrow : row.length = s.width) {begun : Nat} (hskip : window.skip ≤ begun)
    (hbegin : begin s window row kept begun = .ok next) :
    next = inRun s kept (begun + 1) [row] := by
  have hunskipped : begin s window row kept begun = begin s {} row kept begun := by
    unfold begin
    rw [if_neg (Nat.not_lt.2 hskip), if_neg (Nat.not_lt_zero _)]
  rw [hunskipped, begin_inRun h hm (by omega)] at hbegin
  cases hfault : s.faultAt [] row with
  | some f =>
      rw [hfault] at hbegin
      cases hbegin
  | none =>
      rw [hfault] at hbegin
      cases hbegin
      rfl

/-- A record that is skipped has no node. -/
theorem of_begin_skipped {begun : Nat} (hskip : begun < window.skip)
    (hbegin : begin s window row kept begun = .ok next) :
    next = { records := kept, begun := begun + 1, current := some (s.keyOf row, none) } := by
  unfold begin at hbegin
  dsimp only at hbegin
  rw [if_pos hskip] at hbegin
  cases hbegin
  rfl

end Progress

-- =========================================================== all rows

/-- Within the window, reading gives the records kept and those of the runs
to come, as many as are wanted. -/
theorem Built.of_readFrom_inRun (h : s.Built catalog) (hm : s.mapping.Consistent)
    (hd : s.Distinct) (hoffset : s.offset = 0) :
    ∀ {index : Nat} {kept : List Record} {begun : Nat} {run : List Row}, run ≠ [] →
      window.skip ≤ begun → (∀ n, window.take = some n → kept.length < n) →
      s.readFrom window failure index (.inRun s kept begun run) rest = .ok out →
      out = window.limited (kept
        ++ ((run ++ rest.takeWhile (s.continues (run.headD [])))
          :: s.runs (rest.dropWhile (s.continues (run.headD [])))).map s.grouped) := by
  induction rest with
  | nil =>
      intro index kept begun run _ _ hwanted hread
      unfold readFrom at hread
      split at hread
      · cases hread
      · rw [Progress.finish_inRun h hm hd] at hread
        cases hread
        simp only [List.takeWhile_nil, List.dropWhile_nil, runs, List.append_nil, List.map_cons,
          List.map_nil]
        refine (Window.limited_of_le fun n hn => ?_).symm
        rw [List.length_append]
        exact hwanted n hn
  | cons row rest ih =>
      intro index kept begun run hrun hskip hwanted hread
      have hleft : (Progress.inRun s kept begun run).isLeftBy (s.keyOf row)
          = !s.continues (run.headD []) row := rfl
      cases hcontinues : s.continues (run.headD []) row with
      | true =>
          rw [hcontinues] at hleft
          obtain ⟨hrow, next, hnext, hread⟩ := of_readFrom_goesOn hleft hread
          cases Progress.of_absorb_inRun h hoffset hrow hrun hnext
          have hrest := ih (List.append_ne_nil_of_right_ne_nil run (List.cons_ne_nil row []))
            hskip hwanted hread
          rw [headD_append hrun, List.append_assoc, List.singleton_append] at hrest
          rwa [List.takeWhile_cons_of_pos hcontinues, List.dropWhile_cons_of_pos hcontinues]
      | false =>
          have hnot : ¬s.continues (run.headD []) row = true := by
            rw [hcontinues]
            exact Bool.false_ne_true
          rw [hcontinues] at hleft
          rw [List.takeWhile_cons_of_neg hnot, List.dropWhile_cons_of_neg hnot, List.append_nil,
            List.map_cons, List.append_cons]
          obtain ⟨hrow, ⟨n, htake, hfull, rfl⟩ | ⟨hwanted', next, hnext, hread⟩⟩ :=
            of_readFrom_begins hleft (Progress.finish_inRun h hm hd kept begun run) hread
          · -- the run that is over is the last one wanted
            refine (Window.limited_append htake ?_ _).symm
            have hlt := hwanted n htake
            rw [List.length_append, List.length_singleton] at hfull ⊢
            omega
          · cases Progress.of_begin_inRun h hm hoffset hrow hskip hnext
            rw [runs]
            exact ih (List.cons_ne_nil row []) (Nat.le_succ_of_le hskip) hwanted' hread

/-- What begins with a row: the run that the row begins is skipped, or is the
first in the window. -/
theorem Built.of_readFrom_begin (h : s.Built catalog) (hm : s.mapping.Consistent)
    (hd : s.Distinct) (hoffset : s.offset = 0)
    (hskipped : ∀ {index begun : Nat} {first : Row},
      s.readFrom window failure index { begun, current := some (s.keyOf first, none) } rest
        = .ok out →
      out = window.limited
        (((s.runs (rest.dropWhile (s.continues first))).drop (window.skip - begun)).map s.grouped))
    (hleft : p.isLeftBy (s.keyOf row) = true) (hfinish : p.finish s = .ok [])
    (hread : s.readFrom window failure index p (row :: rest) = .ok out) :
    out = window.limited (((s.runs (row :: rest)).drop (window.skip - p.begun)).map s.grouped) := by
  obtain ⟨hrow, ⟨n, htake, hfull, rfl⟩ | ⟨hwanted, next, hnext, hread⟩⟩ :=
    of_readFrom_begins hleft hfinish hread
  · -- nothing is wanted
    cases Nat.le_zero.1 hfull
    exact (Window.limited_append htake List.length_nil _).symm
  · by_cases hskip : p.begun < window.skip
    · cases Progress.of_begin_skipped hskip hnext
      have hdrop : window.skip - p.begun = window.skip - (p.begun + 1) + 1 := by omega
      rw [hdrop, runs, List.drop_succ_cons]
      exact hskipped hread
    · have hskip := Nat.not_lt.1 hskip
      cases Progress.of_begin_inRun h hm hoffset hrow hskip hnext
      rw [Nat.sub_eq_zero_of_le hskip, List.drop_zero, runs]
      exact h.of_readFrom_inRun hm hd hoffset (List.cons_ne_nil row []) (Nat.le_succ_of_le hskip)
        hwanted hread

/-- Where records are skipped, reading gives those of the runs in the
window. -/
theorem Built.of_readFrom_skipped (h : s.Built catalog) (hm : s.mapping.Consistent)
    (hd : s.Distinct) (hoffset : s.offset = 0) : ∀ {index begun : Nat} {first : Row},
    s.readFrom window failure index { begun, current := some (s.keyOf first, none) } rest
      = .ok out →
    out = window.limited
      (((s.runs (rest.dropWhile (s.continues first))).drop (window.skip - begun)).map
        s.grouped) := by
  induction rest with
  | nil =>
      intro index begun first hread
      unfold readFrom at hread
      split at hread
      · cases hread
      · cases hread
        rw [List.dropWhile_nil, runs, List.drop_nil, List.map_nil, Window.limited_nil]
  | cons row rest ih =>
      intro index begun first hread
      have hleft : Progress.isLeftBy { begun, current := some (s.keyOf first, none) } (s.keyOf row)
          = !s.continues first row := rfl
      cases hcontinues : s.continues first row with
      | true =>
          rw [hcontinues] at hleft
          obtain ⟨-, next, hnext, hread⟩ := of_readFrom_goesOn hleft hread
          cases hnext
          rw [List.dropWhile_cons_of_pos hcontinues]
          exact ih hread
      | false =>
          have hnot : ¬s.continues first row = true := by
            rw [hcontinues]
            exact Bool.false_ne_true
          rw [hcontinues] at hleft
          rw [List.dropWhile_cons_of_neg hnot]
          exact h.of_readFrom_begin hm hd hoffset ih hleft rfl hread

/-- What is read of a window are the records of the runs in it. -/
theorem Built.of_read (h : s.Built catalog) (hm : s.mapping.Consistent) (hd : s.Distinct)
    (hoffset : s.offset = 0) {delivered : Cursor.Delivered}
    (hread : s.read window delivered = .ok out) :
    out = (window.part (s.runs delivered.rows)).map s.grouped := by
  unfold read at hread
  rw [Window.part, Window.map_limited]
  cases hrows : delivered.rows with
  | nil =>
      rw [hrows] at hread
      unfold readFrom at hread
      split at hread
      · cases hread
      · cases hread
        rw [runs, List.drop_nil, List.map_nil, Window.limited_nil]
  | cons row rest =>
      rw [hrows] at hread
      exact h.of_readFrom_begin hm hd hoffset (h.of_readFrom_skipped hm hd hoffset) rfl rfl
        hread

end Structure

end RecordQuery
