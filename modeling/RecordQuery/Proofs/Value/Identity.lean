/-
What the text of a key tells of the key: all of it, but for numbers that
JSON has no form for. A finite number is told by its text down to the last
bit and the sign of a zero. NaN and the infinities are all written as null,
so two keys have one text if they differ in nothing but which of these they
hold.

Records are matched to targets, and rows to the records below another, by
the texts of keys. So this is as far as they are told apart.
-/
import RecordQuery.Proofs.Number.Nearest

namespace RecordQuery

open Json

-- =============================================================== numbers

namespace Binary64

variable {x y : Binary64}

theorem toList_write (x : Binary64) :
    (numbers.write x).toList = (if x.isNegative then ['-'] else []) ++ numbers.decimal x.decimal :=
  String.toList_ofList

/-- A number that is negative begins with its sign, any other with a
digit. -/
theorem head?_write (x : Binary64) :
    (numbers.write x).toList.head? = some '-' ↔ x.isNegative = true := by
  obtain ⟨first, rest, hform, hfirst, -⟩ := numeral_decimal x.decimal
  rw [toList_write, hform]
  cases x.isNegative with
  | true => simp
  | false =>
      simp only [Bool.false_eq_true, if_false, List.nil_append, List.head?_cons,
        Option.some.injEq, iff_false]
      rintro rfl
      cases hfirst

/-- A number is known by its text. -/
theorem eq_of_write (h : (numbers.write x).toList = (numbers.write y).toList) : x = y := by
  have hsign : x.isNegative = y.isNegative := by
    rw [Bool.eq_iff_iff, ← head?_write, ← head?_write, h]
  rw [toList_write, toList_write, hsign] at h
  have hnumber := congrArg numberOf (List.append_cancel_left h)
  rw [numberOf_decimal, numberOf_decimal] at hnumber
  exact ext_place hsign (place_eq_of_toRat hnumber)

/-- No brace stands in the text of a number, and no letter begins it. -/
theorem of_mem_write {c : Char} (h : c ∈ (numbers.write x).toList) :
    c.isDigit = true ∨ c ∈ ['.', 'e', '+', '-'] := by
  obtain ⟨first, rest, hform, hfirst, hrest⟩ := numeral_decimal x.decimal
  rw [toList_write, hform, List.mem_append, List.mem_cons] at h
  obtain h | rfl | h := h
  · split at h
    · rw [List.mem_singleton.1 h]
      exact Or.inr (by decide)
    · cases h
  · exact Or.inl hfirst
  · exact hrest c h

end Binary64

-- ================================================================ values

namespace Value

variable {x y : Value}

/-- A number that JSON has no form for. -/
def isUnwritten : Value → Bool
  | float x => !x.isFinite
  | _ => false

/-- Values are alike if they are the same, or both are numbers that JSON has
no form for. -/
def WrittenAlike (x y : Value) : Prop :=
  x = y ∨ (x.isUnwritten = true ∧ y.isUnwritten = true)

/-- Positive infinity stands for every number that JSON has no form for. -/
def asWritten (x : Value) : Value :=
  if x.isUnwritten then float ⟨0x7FF0000000000000⟩ else x

theorem isUnwritten_asWritten (x : Value) : x.asWritten.isUnwritten = x.isUnwritten := by
  unfold asWritten
  split
  · next h =>
    rw [h]
    rfl
  · rfl

theorem asWritten_asWritten (x : Value) : x.asWritten.asWritten = x.asWritten := by
  unfold asWritten
  split
  · rfl
  · rfl

theorem writtenAlike_iff : WrittenAlike x y ↔ x.asWritten = y.asWritten := by
  constructor
  · intro h
    obtain rfl | ⟨hx, hy⟩ := h
    · rfl
    · unfold asWritten
      rw [if_pos hx, if_pos hy]
  · intro h
    have hsame : x.isUnwritten = y.isUnwritten := by
      rw [← isUnwritten_asWritten x, h, isUnwritten_asWritten]
    cases hx : x.isUnwritten with
    | true => exact Or.inr ⟨hx, hsame ▸ hx⟩
    | false =>
        have hy : y.isUnwritten = false := hsame ▸ hx
        unfold asWritten at h
        rw [hx, hy] at h
        exact Or.inl h

theorem jsonChars_float (x : Binary64) :
    (float x).jsonChars
      = '{' :: (quote (float x).kind.toList ++ ':' :: ((float x).jsonContent ++ ['}'])) :=
  rfl

theorem jsonContent_finite {x : Binary64} (h : x.isFinite = true) :
    (float x).jsonContent = (numbers.write x).toList :=
  if_pos h

theorem jsonContent_not_finite {x : Binary64} (h : x.isFinite = false) :
    (float x).jsonContent = "null".toList :=
  if_neg (by rw [h]; exact Bool.false_ne_true)

/-- What has no form of its own is written as what stands for it. -/
theorem jsonChars_asWritten (x : Value) : x.asWritten.jsonChars = x.jsonChars := by
  unfold asWritten
  split
  · next hx =>
    cases x with
    | float x =>
        have hnot : x.isFinite = false := by
          rw [← Bool.not_eq_true']
          exact hx
        rw [jsonChars_float, jsonChars_float, jsonContent_not_finite hnot,
          jsonContent_not_finite rfl]
        rfl
    | _ => cases hx
  · rfl

/-- No brace stands in what a number is written as. -/
theorem ne_brace_of_mem_content {x : Binary64} :
    ∀ c ∈ (float x).jsonContent, decide (c ≠ '}') = true := by
  have hmarks : ∀ c ∈ ['.', 'e', '+', '-'], decide (c ≠ '}') = true := by simp
  have hnull : ∀ c ∈ "null".toList, decide (c ≠ '}') = true := by simp
  intro c hc
  cases hfinite : x.isFinite with
  | true =>
      rw [jsonContent_finite hfinite] at hc
      exact (Binary64.of_mem_write hc).elim (ne_of_isDigit rfl) (hmarks c)
  | false =>
      rw [jsonContent_not_finite hfinite] at hc
      exact hnull c hc

/-- Finite numbers are not written as null. -/
theorem write_ne_null (x : Binary64) : (numbers.write x).toList ≠ "null".toList := by
  intro h
  have hletter : 'n' ∈ (numbers.write x).toList := by
    rw [h]
    decide
  exact absurd (Binary64.of_mem_write hletter) (by decide)

/-- Numbers are known by what they are written as, those without a form of
their own standing for each other. -/
theorem asWritten_of_content {x y : Binary64}
    (h : (float x).jsonContent = (float y).jsonContent) :
    (float x).asWritten = (float y).asWritten := by
  rw [← writtenAlike_iff]
  cases hx : x.isFinite with
  | true =>
      cases hy : y.isFinite with
      | true =>
          rw [jsonContent_finite hx, jsonContent_finite hy] at h
          exact Or.inl (congrArg float (Binary64.eq_of_write h))
      | false =>
          rw [jsonContent_finite hx, jsonContent_not_finite hy] at h
          exact absurd h (write_ne_null x)
  | false =>
      cases hy : y.isFinite with
      | true =>
          rw [jsonContent_not_finite hx, jsonContent_finite hy] at h
          exact absurd h.symm (write_ne_null y)
      | false => exact Or.inr ⟨congrArg not hx, congrArg not hy⟩

theorem float_cancel {x y : Binary64} (hx : (float x).asWritten = float x)
    (hy : (float y).asWritten = float y) {rest rest' : List Char}
    (h : (float x).jsonContent ++ '}' :: rest = (float y).jsonContent ++ '}' :: rest') :
    float x = float y ∧ rest = rest' := by
  have hcontent := congrArg (List.takeWhile (· ≠ '}')) h
  have hrest := congrArg (fun cs : List Char => (cs.dropWhile (· ≠ '}')).drop 1) h
  rw [takeWhile_ne '}' ne_brace_of_mem_content, takeWhile_ne '}' ne_brace_of_mem_content]
    at hcontent
  rw [dropWhile_ne '}' ne_brace_of_mem_content, dropWhile_ne '}' ne_brace_of_mem_content] at hrest
  refine ⟨?_, hrest⟩
  rw [← hx, ← hy]
  exact asWritten_of_content hcontent

/-- Values are known by what is written of them, each number that JSON has no
form for as the one that stands for it. -/
theorem delimited_asWritten : Delimited jsonChars fun x => x.asWritten = x :=
  delimited_of_content fun {x y rest rest'} hx hy hkind hnull h => by
    cases hfloat : x.isFloat with
    | false => exact content_cancel hfloat hkind hnull h
    | true =>
        cases x with
        | float x =>
            cases y with
            | float y => exact float_cancel hx hy h
            | _ => simp [kind] at hkind
        | _ => cases hfloat

/-- Keys have one text exactly if they are alike, position by position. -/
theorem keyText_eq_iff {xs ys : List Value} :
    keyText xs = keyText ys ↔ List.Forall₂ WrittenAlike xs ys := by
  have hwritten : ∀ zs : List Value, keyText (zs.map asWritten) = keyText zs := by
    intro zs
    unfold keyText
    rw [List.map_map]
    congr 3
    exact funext jsonChars_asWritten
  have hvalid : ∀ zs : List Value, ∀ z ∈ zs.map asWritten, z.asWritten = z := by
    intro zs z hz
    obtain ⟨x, -, rfl⟩ := List.mem_map.1 hz
    exact asWritten_asWritten x
  have halike : List.Forall₂ WrittenAlike xs ys ↔ xs.map asWritten = ys.map asWritten := by
    rw [← List.forall₂_eq_eq_eq, List.forall₂_map_left_iff, List.forall₂_map_right_iff]
    constructor
    · exact List.Forall₂.imp fun _ _ => writtenAlike_iff.1
    · exact List.Forall₂.imp fun _ _ => writtenAlike_iff.2
  rw [halike, ← hwritten xs, ← hwritten ys]
  constructor
  · exact keyText_cancel delimited_asWritten (hvalid xs) (hvalid ys)
  · intro h
    rw [h]

/-- A key without numbers that JSON has no form for shares its text with no
other key. -/
theorem keyText_eq_iff_eq {xs ys : List Value} (h : ∀ x ∈ xs, x.isUnwritten = false) :
    keyText xs = keyText ys ↔ xs = ys := by
  constructor
  · intro htext
    have halike := keyText_eq_iff.1 htext
    clear htext
    induction halike with
    | nil => rfl
    | cons hfirst _ ih =>
        obtain ⟨hx, hxs⟩ := List.forall_mem_cons.1 h
        obtain rfl | ⟨hunwritten, -⟩ := hfirst
        · rw [ih hxs]
        · rw [hx] at hunwritten
          cases hunwritten
  · intro hsame
    rw [hsame]

end Value

end RecordQuery
