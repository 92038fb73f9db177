/-
Templates cut at their places. A template is read from left to right: the
leftmost `%s` ends a piece, and the next one is sought behind it. There is
one such cut, and it is the only way to write the template as pieces with
`%s` between them and none in them, since one `%s` cannot overlap another.

What a template is filled to is said by its pieces alone: the argument of
the same number lies in each place, or nothing for want of one. The text
of an argument is not read, so it may hold a `%s` of its own. The form of
a method has a place for each argument, so the texts that the arguments of
a call are compiled to lie in the places of its form, in the order of
their parameters.
-/
import Mathlib.Data.List.Infix
import Mathlib.Data.List.TakeDrop
import RecordQuery.Proofs.Statement.Rendering

namespace RecordQuery

namespace Template

-- ================================================================ cuts

/-- What stands for a place. -/
def mark : List Char := ['%', 's']

/-- A template cut at its places. The leftmost mark ends a piece, and the
next one is sought behind it; a text without a mark is one piece. -/
inductive Cut : List Char → List (List Char) → Prop where
  | last {piece : List Char} (hbare : ¬ mark <:+: piece) : Cut piece [piece]
  | place {piece rest : List Char} {pieces : List (List Char)}
      (hfirst : ∀ i < piece.length, ¬ mark <+: (piece ++ (mark ++ rest)).drop i)
      (hrest : Cut rest pieces) : Cut (piece ++ (mark ++ rest)) (piece :: pieces)

section Cuts

variable {template piece rest : List Char} {pieces others : List (List Char)}

theorem Cut.ne_nil (h : Cut template pieces) : pieces ≠ [] := by
  cases h <;> exact List.cons_ne_nil _ _

/-- A mark that is the leftmost of a text does not stand behind another
mark of it. -/
theorem length_le_of_first {piece' rest' : List Char}
    (heq : piece ++ (mark ++ rest) = piece' ++ (mark ++ rest'))
    (hfirst : ∀ i < piece'.length, ¬ mark <+: (piece' ++ (mark ++ rest')).drop i) :
    piece'.length ≤ piece.length := by
  refine Nat.le_of_not_lt fun hlt => hfirst _ hlt ?_
  rw [← heq, List.drop_left]
  exact List.prefix_append mark rest

/-- A template is cut in one way. -/
theorem Cut.unique (h : Cut template pieces) (h' : Cut template others) : pieces = others := by
  induction h generalizing others with
  | last hbare =>
      cases h' with
      | last => rfl
      | place => exact absurd ⟨_, _, by rw [List.append_assoc]⟩ hbare
  | @place piece rest pieces hfirst hrest ih =>
      generalize heq : piece ++ (mark ++ rest) = whole at h'
      cases h' with
      | last hbare =>
          exact absurd ⟨piece, rest, by rw [← heq, List.append_assoc]⟩ hbare
      | @place piece' rest' pieces' hfirst' hrest' =>
          -- Both pieces end at the leftmost mark, so neither is the shorter one.
          have hlength : piece.length = piece'.length :=
            Nat.le_antisymm (length_le_of_first heq.symm hfirst) (length_le_of_first heq hfirst')
          obtain ⟨rfl, hbehind⟩ := List.append_inj heq hlength
          obtain rfl := List.append_cancel_left hbehind
          rw [ih hrest']

/-- A character with which no mark begins belongs to the first piece. -/
theorem Cut.cons {c : Char} (hc : ¬ mark <+: c :: rest) (h : Cut rest (piece :: pieces)) :
    Cut (c :: rest) ((c :: piece) :: pieces) := by
  cases h with
  | last hbare =>
      refine .last fun hmark => ?_
      rcases List.infix_cons_iff.1 hmark with hmark | hmark
      · exact hc hmark
      · exact hbare hmark
  | place hfirst hrest =>
      refine @Cut.place (c :: piece) _ _ (fun i hi => ?_) hrest
      cases i with
      | zero => exact hc
      | succ i => exact hfirst i (Nat.lt_of_succ_lt_succ hi)

/-- Every template can be cut, into a piece and one more for each place. -/
theorem exists_cut (template : List Char) :
    ∃ piece pieces, Cut template (piece :: pieces) ∧ pieces.length = Writing.places template := by
  induction template using Writing.places.induct with
  | case1 rest ih =>
      obtain ⟨piece, pieces, hcut, hlength⟩ := ih
      have hplace : Cut ([] ++ (mark ++ rest)) ([] :: piece :: pieces) :=
        .place (fun i hi => absurd hi (Nat.not_lt_zero i)) hcut
      refine ⟨[], piece :: pieces, hplace, ?_⟩
      rw [Writing.places, List.length_cons, hlength]
  | case2 c rest hne ih =>
      obtain ⟨piece, pieces, hcut, hlength⟩ := ih
      refine ⟨c :: piece, pieces, hcut.cons fun hmark => ?_, ?_⟩
      · obtain ⟨behind, hbehind⟩ := hmark
        obtain ⟨rfl, rfl⟩ := List.cons_eq_cons.1 hbehind
        exact hne behind rfl rfl
      · rw [Writing.places, hlength]
        exact hne
  | case3 => exact ⟨[], [], .last (by decide), rfl⟩

theorem Cut.length_eq (h : Cut template pieces) :
    pieces.length = Writing.places template + 1 := by
  obtain ⟨piece, others, hcut, hlength⟩ := exists_cut template
  rw [h.unique hcut, List.length_cons, hlength]

/-- In front of a mark, none begins within a piece that holds none: the
two would overlap, and the mark ends with another character than it begins
with. -/
theorem first_of_bare (hbare : ¬ mark <:+: piece) (rest : List Char) :
    ∀ i < piece.length, ¬ mark <+: (piece ++ (mark ++ rest)).drop i := by
  induction piece with
  | nil => exact fun i hi => absurd hi (Nat.not_lt_zero i)
  | cons c piece ih =>
      rw [List.infix_cons_iff, not_or] at hbare
      intro i hi
      cases i with
      | zero =>
          rintro ⟨behind, hbehind⟩
          obtain ⟨rfl, hnext⟩ := List.cons_eq_cons.1 hbehind
          -- The `s` is the first character of the next mark, or stands in the piece.
          cases piece with
          | nil => exact absurd (List.cons_eq_cons.1 hnext).1 (by decide)
          | cons d piece =>
              obtain ⟨rfl, -⟩ := List.cons_eq_cons.1 hnext
              exact hbare.1 ⟨piece, rfl⟩
      | succ i => exact ih hbare.2 i (Nat.lt_of_succ_lt_succ hi)

theorem bare_of_first (hfirst : ∀ i < piece.length, ¬ mark <+: (piece ++ (mark ++ rest)).drop i) :
    ¬ mark <:+: piece := by
  rintro ⟨before, behind, rfl⟩
  refine hfirst before.length ?_ ?_
  · have hmark : 0 < mark.length := by decide
    rw [List.length_append, List.length_append]
    omega
  · rw [List.append_assoc, List.append_assoc, List.drop_left]
    exact List.prefix_append mark _

/-- The cut from left to right is the only way to write a template as
pieces without a mark and marks between them. -/
theorem cut_iff : Cut template pieces ↔
    pieces ≠ [] ∧ mark.intercalate pieces = template ∧ ∀ piece ∈ pieces, ¬ mark <:+: piece := by
  constructor
  · intro h
    refine ⟨h.ne_nil, ?_⟩
    induction h with
    | last hbare => exact ⟨List.intercalate_singleton, List.forall_mem_singleton.2 hbare⟩
    | place hfirst hrest ih =>
        obtain ⟨next, more, rfl⟩ := List.exists_cons_of_ne_nil hrest.ne_nil
        rw [List.intercalate_cons_cons, ih.1, List.append_assoc]
        exact ⟨rfl, List.forall_mem_cons.2 ⟨bare_of_first hfirst, ih.2⟩⟩
  · rintro ⟨hne, rfl, hbare⟩
    induction pieces with
    | nil => exact absurd rfl hne
    | cons piece pieces ih =>
        obtain ⟨hpiece, hbare⟩ := List.forall_mem_cons.1 hbare
        cases pieces with
        | nil =>
            rw [List.intercalate_singleton]
            exact .last hpiece
        | cons next more =>
            rw [List.intercalate_cons_cons, List.append_assoc]
            exact .place (first_of_bare hpiece _) (ih (List.cons_ne_nil _ _) hbare)

end Cuts

-- ============================================================= filling

section Filling

variable {template piece rest : List Char} {pieces : List (List Char)}

theorem fillChars_mark (rest : List Char) (args : List (List Char)) :
    fillChars (mark ++ rest) args = args.headD [] ++ fillChars rest args.tail := rfl

theorem fillChars_cons {c : Char} (hc : ¬ mark <+: c :: rest) (args : List (List Char)) :
    fillChars (c :: rest) args = c :: fillChars rest args := by
  rw [fillChars]
  rintro behind rfl rfl
  exact hc ⟨behind, rfl⟩

theorem fillChars_of_bare (hbare : ¬ mark <:+: piece) (args : List (List Char)) :
    fillChars piece args = piece := by
  induction piece with
  | nil => rfl
  | cons c piece ih =>
      rw [List.infix_cons_iff, not_or] at hbare
      rw [fillChars_cons hbare.1, ih hbare.2]

/-- The step of a filling: what stands before the leftmost mark stays, the
first argument takes the place of the mark, and what stands behind it is
filled with the others. -/
theorem fillChars_place
    (hfirst : ∀ i < piece.length, ¬ mark <+: (piece ++ (mark ++ rest)).drop i)
    (args : List (List Char)) :
    fillChars (piece ++ (mark ++ rest)) args
      = piece ++ (args.headD [] ++ fillChars rest args.tail) := by
  induction piece with
  | nil => rw [List.nil_append, List.nil_append, fillChars_mark]
  | cons c piece ih =>
      have hc : ¬ mark <+: c :: (piece ++ (mark ++ rest)) := hfirst 0 (Nat.zero_lt_succ _)
      rw [List.cons_append, fillChars_cons hc,
        ih fun i hi => hfirst (i + 1) (Nat.succ_lt_succ hi), List.cons_append]

/-- A template that is cut is filled by what lies between its pieces. -/
theorem fillChars_of_cut (h : Cut template (piece :: pieces)) (args : List (List Char)) :
    fillChars template args
      = piece ++ (List.zipWith (· ++ ·) (args.takeD pieces.length []) pieces).flatten := by
  generalize hall : piece :: pieces = all at h
  induction h generalizing piece pieces args with
  | last hbare =>
      obtain ⟨rfl, rfl⟩ := List.cons_eq_cons.1 hall
      rw [fillChars_of_bare hbare, List.zipWith_nil_right, List.flatten_nil, List.append_nil]
  | place hfirst hrest ih =>
      obtain ⟨rfl, rfl⟩ := List.cons_eq_cons.1 hall
      -- The argument goes in front of the next piece, and there is one.
      obtain ⟨next, more, rfl⟩ := List.exists_cons_of_ne_nil hrest.ne_nil
      rw [fillChars_place hfirst, ih args.tail rfl, List.length_cons, List.takeD_succ,
        List.zipWith_cons_cons, List.flatten_cons, List.headD_eq_head?_getD, List.append_assoc]

end Filling

-- ==================================================== filled templates

/-- What a template is filled to: the first of its pieces, then what lies
in each place, with the piece behind it. -/
structure Filled where
  first : String
  rest : List (String × String)
deriving DecidableEq, Repr

namespace Filled

/-- The pieces of the template. -/
def pieces (filled : Filled) : List String :=
  filled.first :: filled.rest.map Prod.snd

/-- What lies in the places, from left to right. -/
def placed (filled : Filled) : List String :=
  filled.rest.map Prod.fst

def text (filled : Filled) : String :=
  filled.first ++ String.join (filled.rest.map fun stretch => stretch.1 ++ stretch.2)

theorem length_pieces (filled : Filled) : filled.pieces.length = filled.rest.length + 1 := by
  rw [pieces, List.length_cons, List.length_map]

/-- Pieces with an argument between each and the next, or with nothing
there for want of one. -/
def weave (first : String) (more args : List String) : Filled where
  first := first
  rest := (args.takeD more.length "").zip more

variable (first : String) (more args : List String)

theorem pieces_weave : (weave first more args).pieces = first :: more := by
  rw [pieces, weave, List.map_snd_zip (List.takeD_length _ _ _).ge]

theorem placed_weave : (weave first more args).placed = args.takeD more.length "" := by
  rw [placed, weave, List.map_fst_zip (List.takeD_length _ _ _).le]

theorem length_rest_weave : (weave first more args).rest.length = more.length := by
  rw [weave, List.length_zip, List.takeD_length, Nat.min_self]

end Filled

theorem map_takeD {α β : Type} (f : α → β) (n : Nat) (xs : List α) (default : α) :
    (xs.takeD n default).map f = (xs.map f).takeD n (f default) := by
  induction n generalizing xs with
  | zero => rw [List.takeD_zero, List.takeD_zero, List.map_nil]
  | succ n ih =>
      rw [List.takeD_succ, List.takeD_succ, List.map_cons, ih, List.head?_map, Option.getD_map,
        List.map_tail]

theorem takeD_of_length_eq {α : Type} {n : Nat} {xs : List α} (h : n = xs.length) (default : α) :
    xs.takeD n default = xs := by
  rw [List.takeD_eq_take default h.le, h, List.take_length]

theorem fill_of_cut {template first : String} {more : List String}
    (h : Cut template.toList ((first :: more).map String.toList)) (args : List String) :
    fill template args = (Filled.weave first more args).text := by
  have hargs := map_takeD String.toList more.length args ""
  rw [String.toList_empty] at hargs
  rw [← String.toList_inj, fill, String.toList_ofList, fillChars_of_cut h, List.length_map,
    ← hargs, List.zipWith_map, Filled.text, String.toList_append, String.toList_join,
    Filled.weave, List.flatMap_def, List.map_map, List.zip, List.map_zipWith]
  simp [String.toList_append]

theorem exists_cut_strings (template : String) :
    ∃ (first : String) (more : List String), ∀ pieces : List String,
      Cut template.toList (pieces.map String.toList) ↔ pieces = first :: more := by
  obtain ⟨piece, others, hcut, -⟩ := exists_cut template.toList
  refine ⟨String.ofList piece, others.map String.ofList, fun pieces => ?_⟩
  have hstrings : (String.ofList piece :: others.map String.ofList).map String.toList
      = piece :: others := by
    simp [Function.comp_def]
  constructor
  · intro h
    exact List.map_injective_iff.2 (fun _ _ => String.toList_inj.1)
      ((h.unique hcut).trans hstrings.symm)
  · rintro rfl
    rwa [hstrings]

/-- A template is filled in one pass. It has one cut at its places, read
from left to right; between the pieces lie the arguments as they are, each
in the place of its number. A place without an argument stays empty, and
arguments left over are not used; with as many places as arguments, what
lies in the places is the arguments, once each and in order. -/
theorem fills_in_one_pass (template : String) (args : List String) :
    ∃ filled : Filled,
      (∀ pieces : List String,
        Cut template.toList (pieces.map String.toList) ↔ pieces = filled.pieces)
      ∧ fill template args = filled.text
      ∧ filled.placed = args.takeD filled.rest.length ""
      ∧ (filled.rest.length = args.length → filled.placed = args) := by
  obtain ⟨first, more, hcut⟩ := exists_cut_strings template
  have hplaced := Filled.placed_weave first more args
  refine ⟨Filled.weave first more args, ?_, fill_of_cut ((hcut _).2 rfl) args, ?_, ?_⟩
  · rwa [Filled.pieces_weave]
  · rwa [Filled.length_rest_weave]
  · intro hlength
    rw [Filled.length_rest_weave] at hlength
    rw [hplaced, takeD_of_length_eq hlength]

/-- Arguments that read like places, in a template with a lone `%`. -/
theorem fills_marks_as_they_are :
    ∃ filled : Filled, filled.pieces = ["", " LIKE '%' || ", ""]
      ∧ filled.placed = ["\"100%s\"", "%"]
      ∧ fill "%s LIKE '%' || %s" ["\"100%s\"", "%"] = filled.text := by
  obtain ⟨filled, hcut, htext, -, hplaced⟩ :=
    fills_in_one_pass "%s LIKE '%' || %s" ["\"100%s\"", "%"]
  have hpieces : ["", " LIKE '%' || ", ""] = filled.pieces :=
    (hcut _).1 (cut_iff.2 ⟨by decide, by decide, by decide⟩)
  have hlength : filled.rest.length = 2 := by
    have hcount := congrArg List.length hpieces
    rw [Filled.length_pieces] at hcount
    exact (Nat.succ_injective hcount).symm
  exact ⟨filled, hpieces.symm, hplaced hlength, htext⟩

end Template

-- =============================================================== calls

open Template

variable {dialect : Dialect} {scope : Scope}

/-- Arguments are compiled one by one, and kept in this order. -/
theorem Element.mapM_of_compileArgs {args : List Element} {sofar done : Arguments}
    (h : Element.compileArgs dialect scope sofar args = .ok done) :
    ∃ fs, args.mapM (Element.compile dialect scope) = .ok fs
      ∧ done.texts = sofar.texts ++ fs.map Fragment.sql
      ∧ done.params = sofar.params ++ fs.flatMap Fragment.params := by
  induction args generalizing sofar with
  | nil =>
      cases pure_eq_ok.1 h
      exact ⟨[], rfl, by simp, by simp⟩
  | cons arg rest ih =>
      obtain ⟨f, hf, h⟩ := bind_eq_ok.1 h
      obtain ⟨more, hmore, h⟩ := bind_eq_ok.1 h
      obtain ⟨joins, -, rfl⟩ := map_eq_ok.1 hmore
      obtain ⟨fs, hfs, htexts, hparams⟩ := ih h
      refine ⟨f :: fs, ?_, by simp [htexts], by simp [hparams]⟩
      rw [List.mapM_cons, hf, hfs]
      rfl

/-- A call is compiled to its form with the texts of its arguments in the
places, and the parameters follow in the same order. -/
theorem Element.compile_call (hd : dialect.Lawful) {name : String} {args : List Element}
    {f : Fragment} (h : (Element.method name args).compile dialect scope = .ok f) :
    ∃ template fs, ∃ filled : Filled, dialect.template? name = some template
      ∧ args.mapM (Element.compile dialect scope) = .ok fs
      ∧ Cut template.toList (filled.pieces.map String.toList)
      ∧ filled.placed = fs.map Fragment.sql ∧ f.sql = filled.text
      ∧ f.params = fs.flatMap Fragment.params := by
  obtain ⟨template, hform, h⟩ := bind_eq_ok.1 h
  obtain ⟨compiled, hargs, h⟩ := bind_eq_ok.1 h
  cases pure_eq_ok.1 h
  obtain ⟨htemplate, hplaces, -⟩ := hd.form hform
  obtain ⟨fs, hfs, htexts, hparams⟩ := Element.mapM_of_compileArgs hargs
  obtain ⟨first, more, hcut⟩ := exists_cut_strings template
  have hfirst := (hcut _).2 rfl
  refine ⟨template, fs, Filled.weave first more compiled.texts, htemplate, hfs, ?_, ?_, ?_, ?_⟩
  · rwa [Filled.pieces_weave]
  · have hlength : more.length = compiled.texts.length := by
      have hmore := hfirst.length_eq
      have hcount := (forall₂_of_mapM hfs).length_eq
      rw [List.length_map, List.length_cons, hplaces] at hmore
      rw [htexts, List.nil_append, List.length_map]
      omega
    rw [Filled.placed_weave, takeD_of_length_eq hlength, htexts, List.nil_append]
  · exact fill_of_cut hfirst compiled.texts
  · rw [Arguments.fill, hparams, List.nil_append]

end RecordQuery
