/-
Rows sorted so that those of one record follow each other. Where the rows
of each key are contiguous, no two runs begin with the same key, so every
record is read once.

Rows are contiguous if they are sorted by ranks that do not tell rows of
one key apart, the rank of the key being the last that counts: a row
between two of one key ranks between them, so it ranks as they do.
-/
import Mathlib.Data.List.Basic
import RecordQuery.Proofs.Loading.Grouping

namespace RecordQuery

-- ============================================================== sorting

/-- The comparison by several ranks, of which the first that tells two
apart decides. -/
def lexicographic {α : Type} : List (α → α → Ordering) → α → α → Ordering
  | [], _, _ => .eq
  | rank :: rest, a, b => (rank a b).then (lexicographic rest a b)

section Lexicographic

variable {α : Type} {ranks others : List (α → α → Ordering)} {a b c : α}

/-- A first part of the ranks sorts alike. -/
theorem isLE_of_append (h : (lexicographic (ranks ++ others) a b).isLE) :
    (lexicographic ranks a b).isLE := by
  induction ranks with
  | nil => rfl
  | cons rank rest ih =>
      rw [List.cons_append, lexicographic, Ordering.isLE_then_iff_and] at h
      rw [lexicographic, Ordering.isLE_then_iff_and]
      exact ⟨h.1, h.2.imp_right ih⟩

/-- What stands between two that no rank tells apart is told apart from
them by none. -/
theorem eq_of_between (htrans : ∀ rank ∈ ranks, Std.TransCmp rank)
    (hab : (lexicographic ranks a b).isLE) (hbc : (lexicographic ranks b c).isLE)
    (hac : ∀ rank ∈ ranks, rank a c = .eq) : ∀ rank ∈ ranks, rank a b = .eq := by
  induction ranks with
  | nil => exact fun _ hrank => absurd hrank List.not_mem_nil
  | cons rank rest ih =>
      obtain ⟨hhead, htrans⟩ := List.forall_mem_cons.1 htrans
      obtain ⟨hends, hac⟩ := List.forall_mem_cons.1 hac
      rw [lexicographic, Ordering.isLE_then_iff_and] at hab hbc
      have hnot : rank a b ≠ .lt := by
        intro hlt
        have hends' := Std.TransCmp.lt_of_lt_of_isLE hlt hbc.1
        rw [hends] at hends'
        cases hends'
      have heq : rank a b = .eq := (Ordering.isLE_iff_eq_lt_or_eq_eq.1 hab.1).resolve_left hnot
      have heq' : rank b c = .eq := (Std.TransCmp.congr_left heq).symm.trans hends
      have hnot' : rank b c ≠ .lt := by
        rw [heq']
        exact nofun
      exact List.forall_mem_cons.2
        ⟨heq, ih htrans (hab.2.resolve_left hnot) (hbc.2.resolve_left hnot') hac⟩

end Lexicographic

namespace Structure

variable {s : Structure} {rows : List Row}

/-- A row between two of one key has that key. -/
def Contiguous (s : Structure) (rows : List Row) : Prop :=
  ∀ before first between last after, rows = before ++ first :: between ++ last :: after →
    s.continues first last → ∀ row ∈ between, s.continues first row

/-- A run begins with one of its rows. -/
theorem headD_mem_of_mem_runs {run : List Row} (h : run ∈ s.runs rows) : run.headD [] ∈ run := by
  induction rows using runs.induct s with
  | case1 =>
      rw [runs] at h
      cases h
  | case2 row rest ih =>
      rw [runs] at h
      rcases List.mem_cons.1 h with rfl | h
      · exact List.mem_cons_self
      · exact ih h

/-- Of contiguous rows no two runs begin with the same key. -/
theorem Contiguous.pairwise_runs (h : s.Contiguous rows) :
    (s.runs rows).Pairwise fun run next => ¬s.continues (run.headD []) (next.headD []) := by
  induction rows using runs.induct s with
  | case1 =>
      rw [runs]
      exact .nil
  | case2 row rest ih =>
      have hrows : row :: rest
          = row :: rest.takeWhile (s.continues row) ++ rest.dropWhile (s.continues row) := by
        rw [List.cons_append, List.takeWhile_append_dropWhile]
      rw [runs, List.pairwise_cons]
      refine ⟨fun run hrun hcontinues => ?_, ih fun before first between last after heq => ?_⟩
      · -- the first row behind the run has another key, and stands in between
        have hmem : run.headD [] ∈ rest.dropWhile (s.continues row) := by
          rw [← s.flatten_runs (rest.dropWhile (s.continues row))]
          exact List.mem_flatten.2 ⟨run, hrun, headD_mem_of_mem_runs hrun⟩
        obtain ⟨between, after, hsplit⟩ := List.append_of_mem hmem
        have hfirst := List.head?_dropWhile_not (s.continues row) rest
        rw [hsplit] at hrows hfirst
        cases between with
        | nil => exact Bool.false_ne_true (hfirst.symm.trans hcontinues)
        | cons next between =>
            have hbetween := h [] row (rest.takeWhile (s.continues row) ++ next :: between)
              (run.headD []) after (by rw [hrows]; simp) hcontinues next (by simp)
            exact Bool.false_ne_true (hfirst.symm.trans hbetween)
      · refine h (row :: rest.takeWhile (s.continues row) ++ before) first between last after ?_
        rw [hrows, heq]
        simp

end Structure

end RecordQuery
