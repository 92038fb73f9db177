/-
The names of relation paths. A path of relations has two names in a
statement: the alias of the table it leads to, which glues the names of
its relations together, and the source of its join, which is the alias on
the left, a point and the name of the last relation. Either alone is
ambiguous, for a relation's name may hold points and underscores and may
be empty: paths of one alias need not be one path, and neither need paths
of one source.

Together they are not. If sources agree although the paths differ, then a
point of one source stands inside the last name of the other, and the two
aliases, read from where the shorter left alias ends, go on with an
underscore and with a point, or are of different lengths. So among paths
whose beginnings are among them, of which none has the alias of the root,
those that share alias and source are one path.
-/
import Mathlib.Data.List.Infix
import RecordQuery.Proofs.Firsts
import RecordQuery.Sql.Scope
import RecordQuery.Text.Casing

namespace RecordQuery

-- =============================================================== casing

namespace Casing

theorem toList_fold (text : String) : (fold text).toList = text.toList.map lower := by
  rw [fold, String.toList_ofList]

/-- Folding changes no length. -/
theorem length_fold (text : String) : (fold text).length = text.length := by
  rw [← String.length_toList, toList_fold, List.length_map, String.length_toList]

end Casing

-- ================================================================ names

/-- Relations followed one after the other, by their names. -/
abbrev RelationPath := List String

namespace RelationPath

/-- The alias of the table that a path leads to; empty for the path that
follows nothing. -/
def tableAlias (path : RelationPath) : String :=
  path.foldl Step.joinAlias ""

/-- The alias of the table that a path leads to, the one of the root if it
follows nothing. -/
def aliasUnder (root : String) (path : RelationPath) : String :=
  if path = [] then root else path.tableAlias

/-- What the join at the end of a path stands for. -/
def source (root : String) (path : RelationPath) : String :=
  aliasUnder root path.dropLast ++ "." ++ path.getLastD ""

variable {root : String} {p q : RelationPath} {a b r s x : String}

theorem tableAlias_snoc (p : RelationPath) (r : String) :
    tableAlias (p ++ [r]) = Step.joinAlias p.tableAlias r := by
  rw [tableAlias, List.foldl_append]
  rfl

theorem aliasUnder_snoc (root : String) (p : RelationPath) (r : String) :
    aliasUnder root (p ++ [r]) = tableAlias (p ++ [r]) :=
  if_neg (List.append_ne_nil_of_right_ne_nil p (List.cons_ne_nil r []))

theorem source_snoc (root : String) (p : RelationPath) (r : String) :
    source root (p ++ [r]) = aliasUnder root p ++ "." ++ r := by
  rw [source, List.dropLast_concat, List.getLastD_concat]

-- ==================================================== alias and source

theorem joinAlias_of_ne {before : String} (h : before ≠ "") (r : String) :
    Step.joinAlias before r = before ++ "_" ++ r := by
  rw [Step.joinAlias, if_neg]
  rwa [String.isEmpty_iff]

/-- The last relation's name is at the end of the alias. -/
theorem length_le_joinAlias (before r : String) :
    r.length ≤ (Step.joinAlias before r).length := by
  unfold Step.joinAlias
  split
  · exact Nat.le_refl _
  · rw [String.length_append]
    exact Nat.le_add_left _ _

/-- Characters with a point among them, read in two ways: they are split at
the same point, or one of the points is within the other's last part. -/
theorem chars_split_at_point {a b r s : List Char} (h : a ++ '.' :: r = b ++ '.' :: s) :
    a = b ∧ r = s
      ∨ (∃ x, b = a ++ '.' :: x ∧ r = x ++ '.' :: s)
      ∨ ∃ x, a = b ++ '.' :: x ∧ s = x ++ '.' :: r := by
  rcases List.append_eq_append_iff.1 h with ⟨cs, rfl, hr⟩ | ⟨cs, rfl, hs⟩
  · cases cs with
    | nil => exact Or.inl ⟨(List.append_nil a).symm, (List.cons.inj hr).2⟩
    | cons c cs =>
        obtain ⟨rfl, hrest⟩ := List.cons.inj hr
        exact Or.inr (Or.inl ⟨cs, rfl, hrest⟩)
  · cases cs with
    | nil => exact Or.inl ⟨List.append_nil b, (List.cons.inj hs).2.symm⟩
    | cons c cs =>
        obtain ⟨rfl, hrest⟩ := List.cons.inj hs
        exact Or.inr (Or.inr ⟨cs, rfl, hrest⟩)

/-- The same of texts. -/
theorem split_at_point (h : a ++ "." ++ r = b ++ "." ++ s) :
    a = b ∧ r = s
      ∨ (∃ x, b = a ++ "." ++ x ∧ r = x ++ "." ++ s)
      ∨ ∃ x, a = b ++ "." ++ x ∧ s = x ++ "." ++ r := by
  have hchars : ∀ {t u v : String}, t.toList = u.toList ++ '.' :: v.toList ↔ t = u ++ "." ++ v := by
    intro t u v
    rw [← String.toList_inj, String.toList_append, String.toList_append, List.append_assoc]
    rfl
  rw [← hchars, String.toList_append, String.toList_append, List.append_assoc] at h
  rcases chars_split_at_point h with ⟨hab, hrs⟩ | ⟨x, hb, hr⟩ | ⟨x, ha, hs⟩
  · exact Or.inl ⟨String.toList_inj.1 hab, String.toList_inj.1 hrs⟩
  · rw [← String.toList_ofList (l := x)] at hb hr
    exact Or.inr (Or.inl ⟨_, hchars.1 hb, hchars.1 hr⟩)
  · rw [← String.toList_ofList (l := x)] at ha hs
    exact Or.inr (Or.inr ⟨_, hchars.1 ha, hchars.1 hs⟩)

/-- Where a point of one source stands inside the last name of the other,
the aliases differ. -/
theorem fold_tableAlias_ne (hleft : aliasUnder root q = aliasUnder root p ++ "." ++ x)
    (hlast : r = x ++ "." ++ s) :
    Casing.fold (tableAlias (p ++ [r])) ≠ Casing.fold (tableAlias (q ++ [s])) := by
  intro h
  have hlength := congrArg String.length h
  rw [Casing.length_fold, Casing.length_fold] at hlength
  have hpoint : ".".length = 1 := rfl
  have hleftLength := congrArg String.length hleft
  have hlastLength := congrArg String.length hlast
  simp only [String.length_append, hpoint] at hleftLength hlastLength
  rw [tableAlias_snoc, tableAlias_snoc] at h hlength
  by_cases hq : q = []
  · -- the longer left alias is the root's: the other path's alias is too long
    have hshort : (Step.joinAlias (tableAlias q) s).length = s.length := by
      rw [hq]
      rfl
    have hlong := length_le_joinAlias (tableAlias p) r
    omega
  · rw [aliasUnder, if_neg hq] at hleft hleftLength
    have hne : tableAlias q ≠ "" := by
      intro hempty
      rw [hempty] at hleftLength
      simp at hleftLength
      omega
    rw [joinAlias_of_ne hne, hleft] at h
    rw [joinAlias_of_ne hne] at hlength
    have hunder : "_".length = 1 := rfl
    simp only [String.length_append, hunder] at hlength
    by_cases hp : tableAlias p = ""
    · rw [hp] at hlength
      have hshort : (Step.joinAlias "" r).length = r.length := rfl
      omega
    · by_cases hroot : p = []
      · exact hp (by rw [hroot]; rfl)
      · -- both aliases begin alike, then one has an underscore, one a point
        rw [joinAlias_of_ne hp, aliasUnder, if_neg hroot] at h
        have hlower : Casing.lower '_' ≠ Casing.lower '.' := by decide
        simp only [← String.toList_inj, Casing.toList_fold, String.toList_append,
          List.map_append, List.append_assoc, List.append_cancel_left_eq] at h
        exact hlower (List.cons.inj h).1

-- ============================================================= grounded

/-- The beginnings of a path that goes on by one relation. -/
theorem inits_tail_snoc (path : RelationPath) (r : String) :
    (path ++ [r]).inits.tail = path.inits.tail ++ [path ++ [r]] := by
  rw [List.inits_append, List.tail_append_of_ne_nil (by cases path <;> simp)]
  rfl

/-- Paths none of which is empty, each behind the path to where its last
relation is followed, unless that is the root. -/
inductive Grounded : List RelationPath → Prop where
  | nil : Grounded []
  | snoc {paths : List RelationPath} {path : RelationPath} (before : Grounded paths)
      (named : path ≠ []) (grounded : path.dropLast = [] ∨ path.dropLast ∈ paths) :
      Grounded (paths ++ [path])

namespace Grounded

variable {paths more : List RelationPath}

/-- A path that is grounded in those there are may be added. -/
theorem snoc_child (h : Grounded paths) (hp : p = [] ∨ p ∈ paths) (r : String) :
    Grounded (paths ++ [p ++ [r]]) :=
  .snoc h (List.append_ne_nil_of_right_ne_nil p (List.cons_ne_nil r []))
    (by rwa [List.dropLast_concat])

theorem append (h : Grounded paths) (hmore : Grounded more) : Grounded (paths ++ more) := by
  induction hmore with
  | nil => rwa [List.append_nil]
  | snoc _ named grounded ih =>
      rw [← List.append_assoc]
      exact .snoc ih named (grounded.imp_right (List.mem_append_right _))

theorem flatMap {α : Type} {f : α → List RelationPath} (h : ∀ x, Grounded (f x)) {xs : List α} :
    Grounded (xs.flatMap f) := by
  induction xs with
  | nil => exact .nil
  | cons x xs ih => exact (h x).append ih

/-- The beginnings of a path, the shorter before the longer. -/
theorem prefixes (path : RelationPath) : Grounded path.inits.tail := by
  induction path using List.reverseRecOn with
  | nil => exact .nil
  | append_singleton path r ih =>
      rw [inits_tail_snoc]
      refine ih.snoc_child ?_ r
      cases path with
      | nil => exact Or.inl rfl
      | cons s path => exact Or.inr (by simp)

/-- Repetitions may be left out. -/
theorem eraseDups (h : Grounded paths) : Grounded paths.eraseDups := by
  induction h with
  | nil => exact .nil
  | @snoc paths path _ named grounded ih =>
      rw [eraseDups_append_singleton]
      split
      · exact ih
      · exact .snoc ih named (grounded.imp_right List.mem_eraseDups.2)

/-- What is said of each path by the paths in front of it. -/
theorem of_append_cons (h : Grounded paths) :
    ∀ {before after : List RelationPath} {path : RelationPath},
      paths = before ++ path :: after →
        path ≠ [] ∧ (path.dropLast = [] ∨ path.dropLast ∈ before) := by
  induction h with
  | nil =>
      intro before after path heq
      simp at heq
  | @snoc paths last _ named grounded ih =>
      intro before after path heq
      cases after using List.reverseRecOn with
      | nil =>
          obtain ⟨rfl, hlast⟩ := List.append_inj' heq rfl
          cases hlast
          exact ⟨named, grounded⟩
      | append_singleton after q =>
          rw [← List.cons_append, ← List.append_assoc] at heq
          exact ih (List.append_inj' heq rfl).1

theorem mem (h : Grounded paths) (hp : p ∈ paths) :
    p ≠ [] ∧ (p.dropLast = [] ∨ p.dropLast ∈ paths) := by
  obtain ⟨before, after, heq⟩ := List.append_of_mem hp
  obtain ⟨hne, hbefore⟩ := h.of_append_cons heq
  exact ⟨hne, hbefore.imp_right fun hmem => heq ▸ List.mem_append_left _ hmem⟩

/-- Among grounded paths of which none has the alias of the root, those
that share alias and source are one path. -/
theorem eq_of_tableAlias (h : Grounded paths) (hroot : ∀ p ∈ paths, p.tableAlias ≠ root)
    (hagree : ∀ p ∈ paths, ∀ q ∈ paths,
      Casing.fold p.tableAlias = Casing.fold q.tableAlias → source root p = source root q) :
    ∀ {p q : RelationPath}, p ∈ paths → q ∈ paths →
      Casing.fold p.tableAlias = Casing.fold q.tableAlias → p = q := by
  intro p
  -- equal sources with equal left aliases leave the paths on the left
  induction p using List.reverseRecOn with
  | nil =>
      intro q hp
      exact absurd rfl (h.mem hp).1
  | append_singleton p r ih =>
      intro q hp hq halias
      obtain ⟨q, s, rfl⟩ : ∃ q' s, q = q' ++ [s] :=
        ⟨_, _, (List.dropLast_append_getLast (h.mem hq).1).symm⟩
      have hsource := hagree _ hp _ hq halias
      rw [source_snoc, source_snoc] at hsource
      rcases split_at_point hsource with ⟨hleft, rfl⟩ | ⟨x, hleft, hlast⟩ | ⟨x, hleft, hlast⟩
      · have hbefore := (h.mem hp).2
        have hbefore' := (h.mem hq).2
        rw [List.dropLast_concat] at hbefore hbefore'
        by_cases hpnil : p = []
        · by_cases hqnil : q = []
          · rw [hpnil, hqnil]
          · rw [aliasUnder, aliasUnder, if_pos hpnil, if_neg hqnil] at hleft
            exact absurd hleft.symm (hroot q (hbefore'.resolve_left hqnil))
        · by_cases hqnil : q = []
          · rw [aliasUnder, aliasUnder, if_neg hpnil, if_pos hqnil] at hleft
            exact absurd hleft (hroot p (hbefore.resolve_left hpnil))
          · rw [aliasUnder, aliasUnder, if_neg hpnil, if_neg hqnil] at hleft
            rw [ih (hbefore.resolve_left hpnil) (hbefore'.resolve_left hqnil)
              (congrArg Casing.fold hleft)]
      · exact absurd halias (fold_tableAlias_ne hleft hlast)
      · exact absurd halias.symm (fold_tableAlias_ne hleft hlast)

end Grounded

end RelationPath

end RecordQuery
