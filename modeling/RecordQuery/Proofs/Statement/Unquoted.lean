/-
Quoted names read back. A name is taken off the front of a text by looking
one character ahead: two marks stand for one of the name's, and the first
mark with none behind it ends the name. In front of anything but another
mark this undoes quoting, and nothing else is taken for a name.

So the names in a whole text can be read one after the other, and written
anew in some other way: `rename` keeps everything that stands outside of
the names.
-/
import RecordQuery.Text.Quoted

namespace RecordQuery.Quoted

variable {mark c : Char} {name rest text : List Char}

-- =========================================================== one name

/-- The name behind the mark that opens it, and what follows the mark that
ends it; none if no mark does. -/
def closed? (mark : Char) : List Char → Option (List Char × List Char)
  | [] => none
  | [c] => if c = mark then some ([], []) else none
  | c :: d :: rest =>
    if c = mark then
      if d = mark then (closed? mark rest).map (Prod.map (mark :: ·) id)
      else some ([], d :: rest)
    else (closed? mark (d :: rest)).map (Prod.map (c :: ·) id)

/-- The quoted name in front of a text, and what follows it. -/
def take? (mark : Char) : List Char → Option (List Char × List Char)
  | [] => none
  | c :: rest => if c = mark then closed? mark rest else none

/-- Reads a quoted name from the front of a text. -/
def read? (mark : Char) (text : String) : Option (String × String) :=
  (take? mark text.toList).map (Prod.map String.ofList String.ofList)

theorem closed?_doubled :
    closed? mark (mark :: mark :: rest) = (closed? mark rest).map (Prod.map (mark :: ·) id) := by
  rw [closed?, if_pos rfl, if_pos rfl]

theorem closed?_other (hc : c ≠ mark) :
    closed? mark (c :: rest) = (closed? mark rest).map (Prod.map (c :: ·) id) := by
  cases rest with
  | nil => simp [closed?, hc]
  | cons d rest => rw [closed?, if_neg hc]

theorem closed?_mark (h : rest.head? ≠ some mark) :
    closed? mark (mark :: rest) = some ([], rest) := by
  cases rest with
  | nil => simp [closed?]
  | cons d rest =>
      have hd : d ≠ mark := by simpa using h
      rw [closed?, if_pos rfl, if_neg hd]

/-- Doubling is undone up to the first mark that stands alone. -/
theorem closed?_double (h : rest.head? ≠ some mark) :
    closed? mark (double mark name ++ mark :: rest) = some (name, rest) := by
  induction name with
  | nil => exact closed?_mark h
  | cons c name ih =>
      by_cases hc : c = mark
      · subst hc
        rw [double, if_pos rfl, List.cons_append, List.cons_append, closed?_doubled, ih]
        rfl
      · rw [double, if_neg hc, List.cons_append, closed?_other hc, ih]
        rfl

theorem of_closed? (h : closed? mark text = some (name, rest)) :
    text = double mark name ++ mark :: rest ∧ rest.head? ≠ some mark := by
  induction text using closed?.induct mark generalizing name with
  | case1 => cases h
  | case2 =>
      rw [closed?, if_pos rfl] at h
      cases h
      simp [double]
  | case3 c hc =>
      rw [closed?, if_neg hc] at h
      cases h
  | case4 text ih =>
      rw [closed?_doubled] at h
      obtain ⟨⟨name, rest⟩, hclosed, hmap⟩ := Option.map_eq_some_iff.1 h
      cases hmap
      obtain ⟨rfl, hrest⟩ := ih hclosed
      exact ⟨by simp [double], hrest⟩
  | case5 d text hd =>
      rw [closed?, if_pos rfl, if_neg hd] at h
      cases h
      exact ⟨by simp [double], by simpa using hd⟩
  | case6 c d text hc ih =>
      rw [closed?_other hc] at h
      obtain ⟨⟨name, rest⟩, hclosed, hmap⟩ := Option.map_eq_some_iff.1 h
      cases hmap
      obtain ⟨htext, hrest⟩ := ih hclosed
      exact ⟨by simp [double, hc, htext], hrest⟩

theorem toList_write (mark : Char) (name : String) :
    (write mark name).toList = mark :: (double mark name.toList ++ [mark]) := by
  rw [write, String.toList_ofList]

/-- What is taken for a name is a name as it is quoted, in front of
anything but another mark. -/
theorem take?_eq_some_iff :
    take? mark text = some (name, rest)
      ↔ text = (write mark (String.ofList name)).toList ++ rest ∧ rest.head? ≠ some mark := by
  rw [toList_write, String.toList_ofList]
  constructor
  · intro h
    unfold take? at h
    split at h
    · cases h
    · split at h
      · next hc =>
        obtain ⟨rfl, hrest⟩ := of_closed? h
        exact ⟨by simp [hc], hrest⟩
      · cases h
  · rintro ⟨rfl, hrest⟩
    simp [take?, closed?_double hrest]

theorem read?_eq_some_iff {text name rest : String} :
    read? mark text = some (name, rest)
      ↔ text = write mark name ++ rest ∧ rest.toList.head? ≠ some mark := by
  have htext : text = write mark name ++ rest
      ↔ text.toList = (write mark name).toList ++ rest.toList := by
    rw [← String.toList_inj, String.toList_append]
  rw [htext]
  constructor
  · intro h
    obtain ⟨⟨cs, ds⟩, htake, hmap⟩ := Option.map_eq_some_iff.1 h
    cases hmap
    simpa using take?_eq_some_iff.1 htake
  · intro h
    have htake : take? mark text.toList = some (name.toList, rest.toList) :=
      take?_eq_some_iff.2 (by simpa using h)
    simp [read?, htake]

/-- A name and what follows it are told from the text of both. -/
theorem write_cancel {a b x y : String} (hx : x.toList.head? ≠ some mark)
    (hy : y.toList.head? ≠ some mark) (h : write mark a ++ x = write mark b ++ y) :
    a = b ∧ x = y := by
  have hleft : read? mark (write mark a ++ x) = some (a, x) := read?_eq_some_iff.2 ⟨rfl, hx⟩
  have hright : read? mark (write mark b ++ y) = some (b, y) := read?_eq_some_iff.2 ⟨rfl, hy⟩
  rw [h, hright] at hleft
  cases hleft
  exact ⟨rfl, rfl⟩

theorem write_injective (mark : Char) : (write mark).Injective := by
  intro a b h
  have hend : ("" : String).toList.head? ≠ some mark := by simp
  have hnil : write mark a ++ "" = write mark b ++ "" := by rw [h]
  exact (write_cancel hend hend hnil).1

/-- Whatever is read from the front of a text, less is left. -/
theorem length_lt_of_take? (h : take? mark text = some (name, rest)) :
    rest.length < text.length := by
  obtain ⟨rfl, -⟩ := take?_eq_some_iff.1 h
  rw [toList_write, List.length_append, List.length_cons]
  omega

-- ==================================================== names in a text

/-- A text with the names in it written another way. -/
def rename (mark : Char) (spell : String → String) : List Char → List Char
  | [] => []
  | c :: rest =>
    match _hread : take? mark (c :: rest) with
    | some (name, behind) => (spell (String.ofList name)).toList ++ rename mark spell behind
    | none => c :: rename mark spell rest
termination_by text => text.length
decreasing_by
  · exact length_lt_of_take? _hread
  · exact Nat.lt_succ_self _

variable {spell : String → String}

theorem rename_nil : rename mark spell [] = [] := by rw [rename]

theorem rename_of_take? (h : take? mark text = some (name, rest)) :
    rename mark spell text = (spell (String.ofList name)).toList ++ rename mark spell rest := by
  cases text with
  | nil => cases h
  | cons c text =>
      rw [rename]
      split
      · next hread =>
        cases hread.symm.trans h
        rfl
      · next hread => cases hread.symm.trans h

/-- What begins with no mark is kept. -/
theorem rename_other (hc : c ≠ mark) :
    rename mark spell (c :: rest) = c :: rename mark spell rest := by
  have hnone : take? mark (c :: rest) = none := by rw [take?, if_neg hc]
  rw [rename]
  split
  · next hread => cases hread.symm.trans hnone
  · rfl

theorem rename_append (h : mark ∉ text) :
    rename mark spell (text ++ rest) = text ++ rename mark spell rest := by
  induction text with
  | nil => rfl
  | cons c text ih =>
      rw [List.mem_cons, not_or] at h
      rw [List.cons_append, rename_other (Ne.symm h.1), ih h.2, List.cons_append]

/-- A quoted name is written anew. -/
theorem rename_write (h : rest.head? ≠ some mark) (name : String) :
    rename mark spell ((write mark name).toList ++ rest)
      = (spell name).toList ++ rename mark spell rest := by
  have htake : take? mark ((write mark name).toList ++ rest) = some (name.toList, rest) :=
    take?_eq_some_iff.2 ⟨by rw [String.ofList_toList], h⟩
  rw [rename_of_take? htake, String.ofList_toList]

end RecordQuery.Quoted
